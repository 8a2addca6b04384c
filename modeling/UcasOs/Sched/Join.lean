import UcasOs.Sched.Fairness

/-! `do_waitpid`: who waits for a process goes on waiting until that process exits or is killed, and
is ready from then on. The waiting queue of a process that has exited is empty, so that `do_spawn`
loses nobody when it initialises it. -/

namespace Ucas.Sched
open Ucas.Lib Relation

variable {s s' t : Kernel} {a b : Abs} {x : Act} {op : Op} {p w : PcbRef} {q : QueueRef} {n : Nat}

structure Awaits (p w : PcbRef) (n : Nat) (a : Abs) : Prop where
  queued : p ∈ a.lists (.waiting w)
  live : a.status w ≠ .exited
  pid : a.pid w = n

section Acts

def KeepsWaiting (p w : PcbRef) : Act → Prop
  | .wake q _ | .clear q => q ≠ .waiting w
  | .leave _ r => r ≠ p
  | .die r => r ≠ w
  | _ => True

theorem live_setStatus {r : PcbRef} {st : TaskStatus} (h : a.status w ≠ .exited)
    (hst : w = r → st ≠ .exited) :
    (a.setStatus r st).status w ≠ .exited := by
  by_cases hr : w = r
  · subst hr
    simpa [Abs.setStatus] using hst rfl
  · rwa [Abs.setStatus_of_ne hr]

theorem queued_act (hT : Tidy a) (h : p ∈ a.lists (.waiting w)) (hx : Enabled a x)
    (hk : KeepsWaiting p w x)
    (hslot : ∀ i m e, x = .spawn i m e → w ≠ .task i) : p ∈ (act a x).lists (.waiting w) := by
  have henq : ∀ {L : Lists} q r, p ∈ L (.waiting w) → p ∈ enqueue q r L (.waiting w) :=
      fun _ _ hm =>
    mem_enqueue.mpr (.inl hm)
  have hun : ∀ {q r}, r ∈ a.lists q → p ≠ r → p ∈ unlink q r a.lists (.waiting w) := fun hr hne =>
    (hT.apart.mem_unlink hr).mpr ⟨h, hne⟩
  cases x with
  | wake q r =>
    have hne : p ≠ r := by
      rintro rfl
      exact hk (hT.apart.eq_of_mem hx h)
    exact henq .ready r (hun hx hne)
  | block q => exact henq q a.current h
  | sleep => exact henq .sleeping a.current h
  | preempt => exact henq .ready a.current h
  | dispatch r =>
    have hne : p ≠ r := by
      rintro rfl
      cases hT.apart.eq_of_mem hx.1 h
    exact hun hx.1 hne
  | spawn i m e =>
    refine henq (L := Function.update a.lists (.waiting (.task i)) []) .ready (.task i) ?_
    rw [Function.update_of_ne (by simpa using hslot i m e rfl)]
    exact h
  | leave q r => exact hun hx (Ne.symm hk)
  | clear q => simpa only [act, Function.update_of_ne (Ne.symm hk)] using h
  | retire | exit | die _ | setMutex _ _ | record _ _ _ => exact h

theorem awaits_act (hT : Tidy a) (h : Awaits p w n a) (hx : Enabled a x) (hk : KeepsWaiting p w x) :
    Awaits p w n (act a x) := by
  -- `do_spawn` takes a free slot, and `w` is not free
  have hslot : ∀ i m e, x = .spawn i m e → w ≠ .task i := by
    rintro i m e rfl rfl
    exact h.live hx
  have hlive : ∀ {r st}, st ≠ .exited → (a.setStatus r st).status w ≠ .exited := fun hst =>
    live_setStatus h.live fun _ => hst
  refine ⟨queued_act hT h.queued hx hk hslot, ?_, ?_⟩
  · cases x with
    | wake _ _ | block _ | sleep | preempt | retire | dispatch _ | spawn _ _ _ =>
      exact hlive (by decide)
    | exit =>
      -- nobody waits for the running process when it exits
      refine live_setStatus h.live fun e => ?_
      have hp := h.queued
      rw [e, hx.2] at hp
      cases hp
    | die _ => exact live_setStatus h.live fun e => absurd e.symm hk
    | leave _ _ | clear _ | setMutex _ _ | record _ _ _ => exact h.live
  · cases x with
    | spawn i m e => exact (Function.update_of_ne (hslot i m e rfl) ..).trans h.pid
    | _ => exact h.pid

theorem awaits_path {A : Abs → Act → Prop} (hT : Tidy a) (h : Awaits p w n a)
    (hA : ∀ b x, A b x → KeepsWaiting p w x) (hpath : ReflTransGen (Trans A) a b) :
    Awaits p w n b := by
  refine (invariant_of_path (I := fun b => Tidy b ∧ Awaits p w n b) ?_ ⟨hT, h⟩ hpath).2
  rintro b _ ⟨hTb, hb⟩ ⟨x, hx, hAx, rfl⟩
  exact ⟨tidy_act hTb hx, awaits_act hTb hb hx (hA b x hAx)⟩

theorem Switch.keepsWaiting (h : Switch x) : KeepsWaiting p w x := by
  cases x with
  | wake q r =>
    rintro rfl
    exact h
  | _ => trivial

theorem Releases.keepsWaiting {m : MutexRef} (h : Releases m b x) : KeepsWaiting p w x := by
  cases x with
  | wake q r =>
    rintro rfl
    cases h
  | _ => trivial

theorem Acquires.keepsWaiting {m : MutexRef} {r : PcbRef} (h : Acquires m r x) :
    KeepsWaiting p w x := by
  cases x <;> trivial

end Acts

/-- Calls in whose runs only `do_waitpid`, `do_exit` and `do_kill` use the `waiting_queue` of a
process. -/
def SparesWaiting (s : Kernel) (op : Op) : Prop :=
  KillsFind s op ∧ match op with
    | .block q | .unblockOne q | .unblockAll q => ∀ r, q ≠ .waiting r
    | _ => True

section Step

theorem May.keepsWaiting (h : May s a op b x) (hop : SparesWaiting s op) (hexit : op = .exit →
    s.currentRunning ≠ w)
    (hkill : ∀ n i, op = .kill n → slotOfPid n s.toTasks = some i → .task i ≠ w ∧ .task i ≠ p) :
    KeepsWaiting p w x := by
  rcases h with h | h
  · exact h.keepsWaiting
  cases op with
  | schedule => exact h.elim
  | tick recv =>
    obtain ⟨-, r, rfl⟩ := h
    rintro ⟨⟩
  | resume =>
    obtain ⟨m, -, h | ⟨-, -, rfl⟩⟩ := h
    · exact h.keepsWaiting
    · trivial
  | spawn t =>
    obtain ⟨i, -, rfl⟩ := h
    trivial
  | exit =>
    obtain ⟨m, h⟩ | ⟨r, rfl⟩ | rfl := h
    · exact h.keepsWaiting
    · rintro ⟨⟩
      exact hexit rfl rfl
    · trivial
  | waitpid n =>
    obtain ⟨i, -, -, -, rfl⟩ := h
    trivial
  | kill n =>
    obtain ⟨m, h⟩ | ⟨i, hi, ⟨q, rfl⟩ | rfl | ⟨r, rfl⟩⟩ := h
    · exact h.keepsWaiting
    · exact (hkill n i rfl hi).2
    · exact (hkill n i rfl hi).1
    · rintro ⟨⟩
      exact (hkill n i rfl hi).1 rfl
  | sleep _ | down _ =>
    subst h
    trivial
  | block q =>
    obtain ⟨-, rfl⟩ := h
    trivial
  | unblockOne q | unblockAll q =>
    obtain ⟨r, rfl⟩ := h
    exact hop.2 w
  | mutexInit m =>
    obtain ⟨-, rfl⟩ | rfl := h
    · rintro ⟨⟩
    · trivial
  | acquire m =>
    obtain h | ⟨-, -, rfl⟩ := h
    · exact h.keepsWaiting
    · trivial
  | release m => exact h.keepsWaiting
  | semaphoreInit y v | conditionInit y | barrierInit y v =>
    obtain ⟨-, rfl⟩ := h
    rintro ⟨⟩
  | up y | signal y | broadcast y =>
    obtain ⟨r, rfl⟩ := h
    rintro ⟨⟩
  | wait m c =>
    obtain rfl | h := h
    · trivial
    · exact h.keepsWaiting
  | barrierWait y =>
    obtain rfl | ⟨r, rfl⟩ := h
    · trivial
    · rintro ⟨⟩

def Ends (w : PcbRef) (s : Kernel) (op : Op) : Prop :=
  (op = .exit ∧ s.currentRunning = w) ∨ ∃ n i, op = .kill n ∧ slotOfPid n s.toTasks = some i ∧
    .task i = w

theorem not_killed_of_waits {L : Lists} (hT : Tidy (s.toTasks.abs L))
    (hz : Sleepers (fun _ => False) (s.toTasks.abs L))
    (hr : Removable (s.toTasks.abs L) p) : p ∉ L (.waiting w) := by
  intro hp
  have hq : ∀ q, p ∈ L q → q = .waiting w := fun q h => hT.apart.eq_of_mem h hp
  rw [Removable] at hr
  cases hst : (s.toTasks.abs L).status p with
  | ready | created =>
    rw [hst] at hr
    cases hq _ hr
  | sleeping => cases hq _ (hz p (fun h => h) hst)
  | blocked =>
    rw [hst] at hr
    obtain ⟨k, -, hk⟩ := hr _ hp
    cases hk
  | running => exact hT.running p hst _ hp
  | exited => exact hT.exited p hst _ hp

theorem awaits_step (hs : SimS s a) (hT : Tidy a) (hz : Sleepers (fun _ => False) a)
    (hop : SparesWaiting s op)
    (h : Awaits p w n a) (hends : ¬ Ends w s op) (hrun : step op s = .ok s') :
    ∃ a', SimS s' a' ∧ Awaits p w n a' := by
  have hcov := hop.1.covered hs.1 hz
  have hkill : ∀ n i, op = .kill n → slotOfPid n s.toTasks = some i → .task i ≠ w ∧
      .task i ≠ p := by
    rintro m i rfl hi
    refine ⟨fun e => hends (.inr ⟨m, i, rfl, hi, e⟩), ?_⟩
    rintro rfl
    have hr := hcov i hi
    obtain ⟨⟨L, hL, rfl⟩, -⟩ := hs
    exact not_killed_of_waits hT hz hr h.queued
  obtain ⟨a', hs', -, h'⟩ := step_invariant (I := Awaits p w n) hs hT hcov h
    (fun b x hTb hb hx hm => awaits_act hTb hb hx (hm.keepsWaiting hop (fun e hw =>
      hends (.inl ⟨e, hw⟩)) hkill)) hrun
  exact ⟨a', hs', h'⟩

theorem ready_or_current {k : Resume} (hs : s.Linked) (hp : p ∈ s.members .ready)
    (h : doScheduler k s = .ok s') :
    p ∈ s'.members .ready ∨ s'.currentRunning = p := by
  obtain ⟨t, hlater, h⟩ := scheduler_later (p := p)
    (s := { s with kernelContext := Function.update s.kernelContext s.currentRunning k })
      ⟨hs.family, hs.running⟩ h
  obtain ⟨-, -, -, -, hready, -⟩ := dispatch_cases hlater.family h
  by_cases hcur : s'.currentRunning = p
  · exact .inr hcur
  · rw [hready]
    exact .inl ((List.mem_erase_of_ne (Ne.symm hcur)).mpr (hlater.place hp).1)

theorem drain_wakes (hs : Sim s a) (hp : p ∈ a.lists (.waiting w))
    (h : drain (.waiting w) (wakeHead (.waiting w)) fuel s = .ok t) : p ∈ t.members .ready ∧
      t.currentRunning = s.currentRunning ∧ Family t.queues t.members := by
  have hlength : (s.members (.waiting w)).length ≤ fuel := by
    rw [hs.members]
    exact (Family.length_lt hs.lists).le
  obtain ⟨_, b, ht, hb, hread⟩ := drain_readied (by simp) hs hlength
  cases h.symm.trans ht
  refine ⟨?_, hread.currentRunning, ?_⟩
  · rw [hread.ready]
    exact List.mem_append_right _ (hs.members _ ▸ hp)
  · rw [show t.members = b.lists from funext hb.members]
    exact hb.lists

theorem doExit_wakes (hs : SimS s a) (hT : Tidy a) (hp : p ∈ a.lists (.waiting s.currentRunning))
    (h : doExit s = .ok s') :
    s'.status s.currentRunning = .exited ∧ (p ∈ s'.members .ready ∨ s'.currentRunning = p) := by
  obtain ⟨⟨L, hL, rfl⟩, hS⟩ := hs
  have hawaits : Awaits p s.currentRunning _ (s.toTasks.abs L) := ⟨hp, hS.not_exited, rfl⟩
  obtain ⟨t, ht, h⟩ := exists_of_bind_ok h
  obtain ⟨_, hpath, L₁, hL₁, rfl⟩ := (releaseAll_runs (A := fun b x => (∃ m, Releases m b x) ∧
    Quiet b x) hL
    fun m b x hx => ⟨⟨m, hx⟩, hx.quiet⟩).of_ok ht
  obtain ⟨hT₁, hS₁, hcur⟩ := quiet_path hT hS hpath
  have hcur : t.currentRunning = s.currentRunning := hcur
  have hqueued := (awaits_path hT hawaits (fun _ _ ⟨⟨_, hx⟩, _⟩ => hx.keepsWaiting) hpath).queued
  rw [← hcur] at h hqueued ⊢
  constructor
  · obtain ⟨_, -, ⟨⟨_, -, rfl⟩, -⟩, hgone⟩ :=
      (finishExit_runs (A := fun _ _ => True) hL₁ hT₁ hS₁ (fun _ _ _ => trivial)
      (fun _ _ => trivial) fun _ _ => trivial).of_ok h
    exact hgone.1
  · obtain ⟨u, hu, h⟩ := exists_of_bind_ok h
    obtain ⟨hready, hcur', hfam⟩ := drain_wakes ⟨L₁, hL₁, rfl⟩ hqueued hu
    refine ready_or_current
      (s := { u with status := Function.update u.status t.currentRunning .exited })
      ⟨hfam, fun hrun => ?_⟩ hready h
    simp [hcur'] at hrun

theorem killPcb_wakes {L : Lists} (hL : Family s.queues L) (hT : Tidy (s.toTasks.abs L))
    (hr : Removable (s.toTasks.abs L) w)
    (hp : p ∈ L (.waiting w)) (hne : p ≠ w) (hlive : s.status w ≠ .exited)
    (h : killPcb w s = .ok t) :
    p ∈ t.members .ready := by
  rw [killPcb, if_pos hlive] at h
  obtain ⟨s₁, hs₁, h⟩ := exists_of_bind_ok h
  obtain ⟨s₂, hs₂, h⟩ := exists_of_bind_ok h
  obtain ⟨_, hpath, ⟨L₁, hL₁, rfl⟩, hun⟩ :=
    (leaveQueue_runs (A := fun _ x => ∃ q, x = .leave q w) hL hT hr
    fun _ q => ⟨q, rfl⟩).of_ok hs₁
  have hawaits : Awaits p w _ (s₁.toTasks.abs L₁) := awaits_path hT ⟨hp, hlive, rfl⟩ (by
    rintro b x ⟨q, rfl⟩
    exact hne.symm) hpath
  have hT₁ := tidy_act (x := .die w) (tidy_path hT hpath) hun
  obtain ⟨b, hpath', hs₂⟩ :=
    (releaseAll_runs (s := { s₁ with status := Function.update s₁.status w .exited })
    (A := fun b x => ∃ m, Releases m b x) hL₁ fun m _ _ hx => ⟨m, hx⟩).of_ok hs₂
  have hqueued := (invariant_of_path (I := fun b => Tidy b ∧ p ∈ b.lists (.waiting w)) (by
    rintro b _ ⟨hTb, hb⟩ ⟨x, hx, ⟨m, hm⟩, rfl⟩
    refine ⟨tidy_act hTb hx, queued_act hTb hb hx hm.keepsWaiting ?_⟩
    rintro i n e rfl
    cases hm) ⟨hT₁, hawaits.queued⟩ hpath').2
  exact (drain_wakes hs₂ hqueued h).1

theorem doKill_wakes {i : Fin numMaxTask} (hs : SimS s a) (hT : Tidy a)
    (hz : Sleepers (fun _ => False) a)
    (hr : Removable a (.task i)) (hi : slotOfPid n s.toTasks = some i) (hp : p ∈ a.lists
    (.waiting (.task i)))
    (hlive : s.status (.task i) ≠ .exited) (h : doKill n s = .ok s') :
    p ∈ s'.members .ready ∨ s'.currentRunning = p := by
  obtain ⟨⟨L, hL, rfl⟩, -⟩ := hs
  have hne : p ≠ .task i := by
    rintro rfl
    exact not_killed_of_waits hT hz hr hp
  simp only [doKill, hi] at h
  obtain ⟨t, ht, h⟩ := exists_of_bind_ok h
  have hready := killPcb_wakes hL hT hr hp hne hlive ht
  split at h
  · obtain ⟨b, hpath, hb, -⟩ := (killPcb_runs (A := fun _ _ => True) hL hT hr (fun _ _ => trivial)
      (fun _ => trivial)
      (fun _ _ _ _ => trivial) fun _ _ => trivial).of_ok ht
    exact ready_or_current (hb.linked (tidy_path hT hpath)) hready h
  · cases h
    exact .inl hready

theorem join_step (hs : SimS s a) (hT : Tidy a) (hz : Sleepers (fun _ => False) a)
    (hop : SparesWaiting s op)
    (h : Awaits p w n a) (hrun : step op s = .ok s') : (∃ a', SimS s' a' ∧ Awaits p w n a') ∨
      s'.status w = .exited ∧ (p ∈ s'.members .ready ∨ s'.currentRunning = p) := by
  by_cases hends : Ends w s op
  · right
    obtain ⟨rfl, rfl⟩ | ⟨m, i, rfl, hi, rfl⟩ := hends
    · exact doExit_wakes hs hT h.queued (step_exec (nofun : Op.exit ≠ .resume) hrun).2
    · obtain ⟨_, ⟨⟨_, -, rfl⟩, -⟩, -, -, hgone⟩ := kill_step hs hT hz (hop.1.2 m rfl) hrun
      have hlive : s.status (.task i) ≠ .exited := by
        obtain ⟨⟨_, -, rfl⟩, -⟩ := hs
        exact h.live
      exact ⟨(hgone i hi).1, doKill_wakes hs hT hz (hop.1.covered hs.1 hz i hi) hi h.queued hlive
        (step_exec (nofun : Op.kill m ≠ .resume) hrun).2⟩
  · exact .inl (awaits_step hs hT hz hop h hends hrun)

theorem waitpid_awaits {i : Fin numMaxTask} (hs : SimS s a) (hT : Tidy a)
    (hi : slotOfPid n s.toTasks = some i)
    (hlive : s.status (.task i) ≠ .exited) (hrun : step (.waitpid n) s = .ok s') :
    ∃ a', SimS s' a' ∧ Awaits s.currentRunning (.task i) n a' := by
  obtain ⟨⟨L, hL, rfl⟩, hS⟩ := hs
  have hpid : s.pid (.task i) = n := by simpa using List.find?_some hi
  have hrun := (step_exec (nofun : Op.waitpid n ≠ .resume) hrun).2
  simp only [exec, doWaitpid, hi, if_pos hlive] at hrun
  obtain ⟨t, ht, hrun⟩ := exists_of_bind_ok hrun
  obtain ⟨t', ht', hsim⟩ := blockCurrent_sim (q := .waiting (.task i)) hL (hS.unqueued hT)
  cases ht'.symm.trans ht
  have hblock : Enabled (s.toTasks.abs L) (.block (.waiting (.task i))) :=
    ⟨hS.unqueued hT, hS.not_exited⟩
  have hawaits : Awaits s.currentRunning (.task i) n (act (s.toTasks.abs L)
      (.block (.waiting (.task i)))) :=
    ⟨mem_enqueue.mpr (.inr ⟨rfl, rfl⟩), live_setStatus hlive fun _ => by decide, hpid⟩
  have hT' := tidy_act hT hblock
  obtain ⟨L', hL', hact⟩ := hsim
  rw [hact] at hawaits hT'
  obtain ⟨a', hpath, hs'⟩ := (doScheduler_runs (A := fun _ x => Switch x) (fun _ _ hx => hx) .user
    hL' hT').of_ok hrun
  exact ⟨a', hs', awaits_path hT' hawaits (fun _ _ hx => hx.keepsWaiting) hpath⟩

theorem mem_waiting_step (hs : SimS s a) (hT : Tidy a) (hz : Sleepers (fun _ => False) a)
    (hop : SparesWaiting s op)
    (hrun : step op s = .ok s') (hp : p ∈ s'.members (.waiting w)) : p ∈ a.lists (.waiting w) ∨
      ∃ n i, op = .waitpid n ∧ slotOfPid n s.toTasks = some i ∧ s.status (.task i) ≠ .exited ∧
        w = .task i ∧ p = s.currentRunning := by
  by_contra hnot
  obtain ⟨hold, hnew⟩ := not_or.mp hnot
  have hkeep : ∀ b x, Tidy b → p ∉ b.lists (.waiting w) → Enabled b x → May s a op b x →
      p ∉ (act b x).lists (.waiting w) := by
    intro b x hTb hb hx hm hmem
    have henq : ∀ {L : Lists} q r, .waiting w ≠ q → p ∈ enqueue q r L (.waiting w) →
        p ∈ L (.waiting w) :=
      fun q r hne h => (mem_enqueue.mp h).resolve_right fun e => hne e.1
    cases x with
    | wake q r => exact hb ((hTb.apart.mem_unlink hx).mp (henq .ready r (by simp) hmem)).1
    | block q =>
      obtain hmem | ⟨rfl, rfl⟩ := mem_enqueue.mp hmem
      · exact hb hmem
      · rcases hm with hm | hm
        · exact hm
        cases op with
        | waitpid n =>
          obtain ⟨i, hi, hlive, rfl, ⟨⟩⟩ := hm
          obtain ⟨⟨_, -, rfl⟩, -⟩ := hs
          exact hnew ⟨n, i, rfl, hi, hlive, rfl, rfl⟩
        | block q => exact hop.2 w (Act.block.inj hm.2).symm
        | _ => simp [Acquires, Releases] at hm
    | sleep => exact hb (henq .sleeping b.current (by simp) hmem)
    | preempt => exact hb (henq .ready b.current (by simp) hmem)
    | dispatch r => exact hb ((hTb.apart.mem_unlink hx.1).mp hmem).1
    | spawn i n e => exact hb (mem_update_nil (henq .ready (.task i) (by simp) hmem))
    | leave q r => exact hb ((hTb.apart.mem_unlink hx).mp hmem).1
    | clear q => exact hb (mem_update_nil hmem)
    | retire | exit | die _ | setMutex _ _ | record _ _ _ => exact hb hmem
  obtain ⟨a', hs', -, hp'⟩ := step_invariant hs hT (hop.1.covered hs.1 hz) hold hkeep hrun
  rw [hs'.1.members] at hp
  exact hp' hp

end Step

section Run

def Kernel.Joins (s : Kernel) (p : PcbRef) (i : Fin numMaxTask) (n : Nat) : Prop :=
  p ∈ s.members (.waiting (.task i)) ∧ s.status (.task i) ≠ .exited ∧ s.pid (.task i) = n

theorem joins_iff {i : Fin numMaxTask} (hs : Sim s a) : s.Joins p i n ↔ Awaits p (.task i) n a := by
  have hmem := hs.members (.waiting (.task i))
  obtain ⟨L, -, rfl⟩ := hs
  rw [Kernel.Joins, hmem]
  exact ⟨fun ⟨hp, hlive, hpid⟩ => ⟨hp, hlive, hpid⟩, fun h => ⟨h.queued, h.live, h.pid⟩⟩

theorem SparesWaiting.reachable (h : Reachable SparesWaiting s) : WellFormed s := by
  obtain ⟨e, s₀, he, hinit, hrun⟩ := h
  exact reachable_killsFind ⟨e, s₀, he, hinit, ReflTransGen.mono (fun _ _ ⟨op, hop, h⟩ =>
    ⟨op, hop.1, h⟩) _ _ hrun⟩

/-- Nobody waits for a process that has exited or was killed: its `waiting_queue` is empty when
`do_spawn` gives the control block to another process. -/
theorem awaited_process_live (h : Reachable SparesWaiting s) (hp : p ∈ s.members (.waiting w)) :
    s.status w ≠ .exited := by
  obtain ⟨e, s₀, he, hinit, hrun⟩ := h
  induction hrun generalizing p w with
  | refl =>
    rw [(initPcb_sim hinit).1.1.members] at hp
    cases (mem_initAbs.mp hp).1
  | @tail t s hpath hstep ih =>
    obtain ⟨op, hop, hrun⟩ := hstep
    have hwf := SparesWaiting.reachable ⟨e, s₀, he, hinit, hpath⟩
    have hwf' := hwf.step hop.1 hrun
    obtain ⟨a, hs, hT, hz⟩ := hwf
    obtain hold | ⟨n, i, rfl, hi, hlive, rfl, rfl⟩ := mem_waiting_step hs hT hz hop hrun hp
    · have hlive : t.status w ≠ .exited := ih (hs.1.members _ ▸ hold)
      have hawaits : Awaits p w (t.pid w) a := by
        obtain ⟨⟨_, -, rfl⟩, -⟩ := hs
        exact ⟨hold, hlive, rfl⟩
      obtain ⟨a', ⟨⟨_, -, rfl⟩, -⟩, h'⟩ | ⟨-, hready | rfl⟩ := join_step hs hT hz hop hawaits hrun
      · exact h'.live
      · cases hwf'.eq_of_mem hready hp
      · exact absurd hp (hwf'.current_not_mem _)
    · obtain ⟨a', ⟨⟨_, -, rfl⟩, -⟩, h'⟩ := waitpid_awaits hs hT hi hlive hrun
      exact h'.live

theorem awaited_by_shell :
    ∃ s : Kernel, Reachable SparesWaiting s ∧ shell ∈ s.members (.waiting (.task ⟨0, by decide⟩)) ∧
    s.status (.task ⟨0, by decide⟩) ≠ .exited := by
  obtain ⟨s, hs, htest⟩ := exists_of_endsIn
    (t := fun s : Kernel => decide (shell ∈ s.members (.waiting (.task ⟨0, by decide⟩))))
    (r := execute 1 [.schedule, .spawn ⟨1⟩, .waitpid 2]) (by decide +kernel)
  have hreach : Reachable SparesWaiting s :=
    reachable_execute (by decide) (by simp [SparesWaiting, KillsFind, AnyCall]) hs
  have hmem := of_decide_eq_true htest
  exact ⟨s, hreach, hmem, awaited_process_live hreach hmem⟩

/-- Whoever calls `do_waitpid` for a live process waits for that process as long as it lives, and
can run as soon as it does not: no wake-up comes too early or gets lost. -/
theorem waitpid_joins {i : Fin numMaxTask} (h : Reachable SparesWaiting s)
    (hi : slotOfPid n s.toTasks = some i)
    (hlive : s.status (.task i) ≠ .exited) (hcall : step (.waitpid n) s = .ok t)
    (hrun : ReflTransGen (Steps SparesWaiting) t s') :
    s'.Joins s.currentRunning i n ∨ ∃ u v, ReflTransGen (Steps SparesWaiting) t u ∧
    u.Joins s.currentRunning i n ∧
      Steps SparesWaiting u v ∧ v.status (.task i) = .exited ∧
      (s.currentRunning ∈ v.members .ready ∨ v.currentRunning = s.currentRunning) ∧
      ReflTransGen (Steps SparesWaiting) v s' := by
  have hwf := SparesWaiting.reachable h
  have hop : SparesWaiting s (.waitpid n) := ⟨⟨trivial, by rintro _ ⟨⟩⟩, trivial⟩
  have hwf' := hwf.step hop.1 hcall
  obtain ⟨a, hs, hT, -⟩ := hwf
  obtain ⟨a₁, hs₁, h₁⟩ := waitpid_awaits hs hT hi hlive hcall
  suffices hall : WellFormed s' ∧ _ from hall.2
  induction hrun with
  | refl => exact ⟨hwf', .inl ((joins_iff hs₁.1).mpr h₁)⟩
  | @tail u v hpath hstep ih =>
    have hnext := hstep
    obtain ⟨op, hop, hrun⟩ := hstep
    obtain ⟨hwu, hjoins | ⟨x, y, hx, hjoins, hxy, hexited, hcan, hy⟩⟩ := ih
    · refine ⟨hwu.step hop.1 hrun, ?_⟩
      obtain ⟨b, hsu, hTu, hzu⟩ := hwu
      obtain ⟨b', hsv, hv⟩ | ⟨hexited, hcan⟩ :=
        join_step hsu hTu hzu hop ((joins_iff hsu.1).mp hjoins) hrun
      · exact .inl ((joins_iff hsv.1).mpr hv)
      · exact .inr ⟨u, v, hpath, hjoins, hnext, hexited, hcan, .refl⟩
    · exact ⟨hwu.step hop.1 hrun, .inr ⟨x, y, hx, hjoins, hxy, hexited, hcan, hy.tail hnext⟩⟩

theorem shell_joins :
    ∃ s s' u v : Kernel, Reachable SparesWaiting s ∧ s'.status (.task ⟨0, by decide⟩) = .exited ∧
    u.Joins s.currentRunning ⟨0, by decide⟩ 2 ∧ Steps SparesWaiting u v ∧
    v.status (.task ⟨0, by decide⟩) = .exited ∧
    (s.currentRunning ∈ v.members .ready ∨ v.currentRunning = s.currentRunning) := by
  obtain ⟨s, hs, htest⟩ := exists_of_endsIn
    (t := fun s : Kernel => decide (s.status (.task ⟨0, by decide⟩) ≠ .exited ∧
      slotOfPid 2 s.toTasks = some ⟨0, by decide⟩) &&
      endsIn (fun t : Kernel => endsIn (fun s' : Kernel => decide
        (s'.status (.task ⟨0, by decide⟩) = .exited))
        (step .exit t)) (step (.waitpid 2) s))
    (r := execute 1 [.schedule, .spawn ⟨1⟩]) (by decide +kernel)
  obtain ⟨hfirst, htest⟩ := Bool.and_eq_true_iff.mp htest
  obtain ⟨hlive, hslot⟩ := of_decide_eq_true hfirst
  obtain ⟨t, ht, htest⟩ := exists_of_endsIn htest
  obtain ⟨s', hs', htest⟩ := exists_of_endsIn htest
  have hreach : Reachable SparesWaiting s :=
    reachable_execute (by decide) (by simp [SparesWaiting, KillsFind, AnyCall]) hs
  have hexit : Steps SparesWaiting t s' := ⟨.exit, by simp [SparesWaiting, KillsFind, AnyCall], hs'⟩
  obtain hjoins | ⟨u, v, -, hjoins, hstep, hexited, hcan, -⟩ :=
    waitpid_joins hreach hslot hlive ht (.single hexit)
  · exact absurd (of_decide_eq_true htest) hjoins.2.1
  · exact ⟨s, s', u, v, hreach, of_decide_eq_true htest, hjoins, hstep, hexited, hcan⟩

end Run

end Ucas.Sched

import UcasOs.Sched.RefineOps

/-! `do_kill`: a victim that it finds is gone for good. It looks for a blocked process in the queues
of `Lock[]` only, and one that waits elsewhere stays queued. -/

namespace Ucas.Sched
open Ucas.Lib Relation

variable {s s' : Kernel} {a a' : Abs} {x : Act} {n : Nat}

def Sleepers (except : PcbRef → Prop) (a : Abs) : Prop :=
  ∀ p, ¬ except p → a.status p = .sleeping → p ∈ a.lists .sleeping

theorem sleepers_act {except : PcbRef → Prop} (hT : Tidy a) (h : Sleepers except a)
    (hx : Enabled a x)
    (hl : ∀ q p, x = .leave q p → except p) (hc : ∀ q, x = .clear q → q ≠ .sleeping) :
    Sleepers except (act a x) := by
  intro p hp hst
  -- A process other than the one the act moves stays asleep where it is.
  have hold : ∀ {r st}, st ≠ .sleeping → (a.setStatus r st).status p = .sleeping →
      p ≠ r ∧ p ∈ a.lists .sleeping := by
    intro r st hne hst
    have hpr : p ≠ r := by
      rintro rfl
      exact hne (by simpa [Abs.setStatus] using hst)
    exact ⟨hpr, h p hp ((Abs.setStatus_of_ne hpr).symm.trans hst)⟩
  have hkeep : ∀ {q r}, r ∈ a.lists q → p ≠ r → p ∈ a.lists .sleeping →
      p ∈ unlink q r a.lists .sleeping :=
    fun hr hpr hm => (hT.apart.mem_unlink hr).mpr ⟨hm, hpr⟩
  have henq : ∀ {L : Lists} q r, p ∈ L .sleeping → p ∈ enqueue q r L .sleeping :=
    fun q r hm => mem_enqueue.mpr (.inl hm)
  cases x with
  | wake q r =>
    obtain ⟨hpr, hm⟩ := hold (by decide) hst
    exact henq .ready r (hkeep hx hpr hm)
  | block q => exact henq q a.current (hold (by decide) hst).2
  | sleep =>
    by_cases hpc : p = a.current
    · simp [act, mem_enqueue, hpc]
    · exact henq .sleeping a.current (h p hp ((Abs.setStatus_of_ne hpc).symm.trans hst))
  | preempt => exact henq .ready a.current (hold (by decide) hst).2
  | retire => exact (hold (by decide) hst).2
  | dispatch r =>
    obtain ⟨hpr, hm⟩ := hold (by decide) hst
    exact hkeep hx.1 hpr hm
  | spawn i n e =>
    refine henq (L := Function.update a.lists (.waiting (.task i)) []) .ready (.task i) ?_
    simpa using (hold (by decide) hst).2
  | exit => exact (hold (by decide) hst).2
  | leave q r => exact hkeep hx (fun e => hp (e ▸ hl q r rfl)) (h p hp hst)
  | die r => exact (hold (by decide) hst).2
  | clear q =>
    have hq := hc q rfl
    simpa [act, Function.update_of_ne (Ne.symm hq)] using h p hp hst
  | setMutex m st => exact h p hp hst
  | record r l n => exact h p hp hst

/-- `do_kill(n)` can do its work in `s`: a victim that is ready is in the ready queue, and one that
is blocked waits only for mutexes of `Lock[]`. -/
def Killable (s : Kernel) (n : Nat) : Prop :=
  ∀ i, slotOfPid n s.toTasks = some i → match s.status (.task i) with
    | .ready | .created => .task i ∈ s.members .ready
    | .blocked => ∀ q, .task i ∈ s.members q → ∃ k < maxLockNumTotal, q = .mutex k
    | _ => True

/-- Any system calls; `do_block` and `do_unblock` work on wait queues. -/
def AnyCall (_ : Kernel) : Op → Prop
  | .block q | .unblockOne q | .unblockAll q => q ≠ .ready ∧ q ≠ .sleeping
  | _ => True

def KillsFind (s : Kernel) (op : Op) : Prop := AnyCall s op ∧ ∀ n, op = .kill n → Killable s n

theorem Killable.removable (hs : Sim s a) (hz : Sleepers (fun _ => False) a) (h : Killable s n)
    (i : Fin numMaxTask) (hi : slotOfPid n s.toTasks = some i) : Removable a (.task i) := by
  have hi := h i hi
  have hmem := hs.members
  obtain ⟨L, hL, rfl⟩ := hs
  simp only [hmem] at hi
  have hst : (s.toTasks.abs L).status (.task i) = s.status (.task i) := rfl
  rw [Removable, hst]
  cases hc : s.status (.task i) with
  | ready => simpa [hc] using hi
  | created => simpa [hc] using hi
  | blocked => simpa [hc] using hi
  | sleeping => exact hz _ (fun h => h) hc
  | running => trivial
  | exited => trivial

theorem KillsFind.covered {op : Op} (hs : Sim s a) (hz : Sleepers (fun _ => False) a)
    (h : KillsFind s op) : Covered s a op := by
  cases op with
  | kill n => exact (h.2 n rfl).removable hs hz
  | unblockAll q => exact h.1.1
  | _ => trivial

/-- The call behind an act, for the acts that few calls make. -/
def Cause (s : Kernel) (op : Op) : Act → Prop
  | .clear q => q ≠ .ready ∧ q ≠ .sleeping
  | .block q => op = .block q ∨ (q ≠ .ready ∧ q ≠ .sleeping)
  | .spawn i _ _ => ∃ t, op = .spawn t ∧ freeSlot s.toTasks = some i
  | .exit => op = .exit
  | .leave _ p | .die p => ∃ n i, op = .kill n ∧ slotOfPid n s.toTasks = some i ∧ p = .task i
  | _ => True

theorem Switch.cause {op : Op} (h : Switch x) : Cause s op x := by
  cases x <;> trivial

theorem Acquires.cause {op : Op} {m : MutexRef} {p : PcbRef} (h : Acquires m p x) :
    Cause s op x := by
  cases x <;> trivial

theorem Releases.cause {op : Op} {m : MutexRef} (h : Releases m a x) : Cause s op x := by
  cases x <;> trivial

theorem May.cause {op : Op} (h : May s a op a' x) : Cause s op x := by
  rcases h with h | h
  · exact h.cause
  have hblock : ∀ q, q ≠ .ready ∧ q ≠ .sleeping → Cause s op (.block q) := fun _ hq => .inr hq
  cases op with
  | schedule => exact h.elim
  | tick recv =>
    obtain ⟨-, p, rfl⟩ := h
    trivial
  | resume =>
    obtain ⟨m, -, h | ⟨-, -, rfl⟩⟩ := h
    · exact h.cause
    · exact hblock _ (by simp)
  | spawn t =>
    obtain ⟨i, hi, rfl⟩ := h
    exact ⟨t, rfl, hi⟩
  | exit =>
    obtain ⟨m, h⟩ | ⟨p, rfl⟩ | rfl := h
    · exact h.cause
    · trivial
    · rfl
  | waitpid n =>
    obtain ⟨i, -, -, -, rfl⟩ := h
    exact hblock _ (by simp)
  | kill n =>
    obtain ⟨m, h⟩ | ⟨i, hi, ⟨q, rfl⟩ | rfl | ⟨p, rfl⟩⟩ := h
    · exact h.cause
    · exact ⟨n, i, rfl, hi, rfl⟩
    · exact ⟨n, i, rfl, hi, rfl⟩
    · trivial
  | sleep t =>
    subst h
    trivial
  | block q =>
    obtain ⟨-, rfl⟩ := h
    exact .inl rfl
  | unblockOne q =>
    obtain ⟨p, rfl⟩ := h
    trivial
  | unblockAll q =>
    obtain ⟨p, rfl⟩ := h
    trivial
  | mutexInit m =>
    obtain ⟨-, rfl⟩ | rfl := h
    · exact ⟨by simp, by simp⟩
    · trivial
  | acquire m =>
    obtain h | ⟨-, -, rfl⟩ := h
    · exact h.cause
    · exact hblock _ (by simp)
  | release m => exact Releases.cause h
  | semaphoreInit n val =>
    obtain ⟨-, rfl⟩ := h
    exact ⟨by simp, by simp⟩
  | up n =>
    obtain ⟨p, rfl⟩ := h
    trivial
  | down n =>
    subst h
    exact hblock _ (by simp)
  | conditionInit c =>
    obtain ⟨-, rfl⟩ := h
    exact ⟨by simp, by simp⟩
  | wait m c =>
    obtain rfl | h := h
    · exact hblock _ (by simp)
    · exact h.cause
  | signal c =>
    obtain ⟨p, rfl⟩ := h
    trivial
  | broadcast c =>
    obtain ⟨p, rfl⟩ := h
    trivial
  | barrierInit b goal =>
    obtain ⟨-, rfl⟩ := h
    exact ⟨by simp, by simp⟩
  | barrierWait b =>
    obtain rfl | ⟨p, rfl⟩ := h
    · exact hblock _ (by simp)
    · trivial

theorem sleepers_initAbs {e : Nat} : Sleepers (fun _ => False) (initAbs e) := by
  intro p _ hp
  simp only [initAbs] at hp
  split at hp <;> cases hp

theorem kill_step (hs : SimS s a) (hT : Tidy a) (hz : Sleepers (fun _ => False) a)
    (hk : Killable s n)
    (hrun : step (.kill n) s = .ok s') :
    ∃ a', SimS s' a' ∧ Tidy a' ∧ Sleepers (fun _ => False) a' ∧
      ∀ i, slotOfPid n s.toTasks = some i → Gone (.task i) a' := by
  have hrem := hk.removable hs.1 hz
  obtain ⟨⟨L, hL, rfl⟩, hS⟩ := hs
  rw [step] at hrun
  cases hctx : s.kernelContext s.currentRunning with
  | acquire m => simp [hctx] at hrun
  | user =>
    simp only [hctx, exec] at hrun
    have hA : ∀ a x, Switch x → May s (s.toTasks.abs L) (.kill n) a x := fun _ _ h => .inl h
    have hsim := doKill_gone n hL hT hS hA (fun i hi => ⟨hrem i hi,
      fun _ q => .inr (.inr ⟨i, hi, .inl ⟨q, rfl⟩⟩), fun _ => .inr (.inr ⟨i, hi, .inr (.inl rfl)⟩),
      fun _ r => .inr (.inr ⟨i, hi, .inr (.inr ⟨r, rfl⟩)⟩)⟩) fun m _ _ h => .inr (.inl ⟨m, h⟩)
    rw [hrun] at hsim
    obtain ⟨a', hpath, hs', hgone⟩ := hsim
    -- On the way the victim may be asleep outside the sleeping queue; in the end it has exited.
    let victim (p : PcbRef) : Prop := ∃ i, slotOfPid n s.toTasks = some i ∧ p = .task i
    have hz' := invariant_of_path (I := fun b => Tidy b ∧ Sleepers victim b) (by
      rintro b _ ⟨hTb, hb⟩ ⟨x, hx, hm, rfl⟩
      refine ⟨tidy_act hTb hx, sleepers_act hTb hb hx ?_ ?_⟩
      · rintro q p rfl
        obtain ⟨_, i, ⟨⟩, hi, hp⟩ := hm.cause
        exact ⟨i, hi, hp⟩
      · rintro q rfl
        exact hm.cause.2) ⟨hT, fun p _ => hz p fun h => h⟩ hpath
    refine ⟨a', hs', hz'.1, fun p _ hp => ?_, hgone⟩
    by_cases hv : victim p
    · obtain ⟨i, hi, rfl⟩ := hv
      exact absurd ((hgone i hi).1.symm.trans hp) (by decide)
    · exact hz'.2 p hv hp

theorem killsFind_step {op : Op} (hs : SimS s a) (hT : Tidy a) (hz : Sleepers (fun _ => False) a)
    (hop : KillsFind s op) (hrun : step op s = .ok s') :
    ∃ a', SimS s' a' ∧ Tidy a' ∧ Sleepers (fun _ => False) a' := by
  by_cases hk : ∃ n, op = .kill n
  · obtain ⟨n, rfl⟩ := hk
    obtain ⟨a', h1, h2, h3, -⟩ := kill_step hs hT hz (hop.2 n rfl) hrun
    exact ⟨a', h1, h2, h3⟩
  · refine step_invariant hs hT (hop.covered hs.1 hz) hz (fun b x hTb hb hx hm => ?_) hrun
    refine sleepers_act hTb hb hx ?_ ?_
    · rintro q p rfl
      obtain ⟨n, -, rfl, -⟩ := hm.cause
      exact hk ⟨n, rfl⟩
    · rintro q rfl
      exact hm.cause.2

theorem reachable_killsFind (h : Reachable KillsFind s) :
    ∃ a, SimS s a ∧ Tidy a ∧ Sleepers (fun _ => False) a := by
  obtain ⟨e, s₀, -, hinit, hrun⟩ := h
  induction hrun with
  | refl => exact ⟨_, (initPcb_sim hinit).1, (initPcb_sim hinit).2, sleepers_initAbs⟩
  | tail _ hstep ih =>
    obtain ⟨a, hs, hT, hz⟩ := ih
    obtain ⟨op, hop, hrun⟩ := hstep
    exact killsFind_step hs hT hz hop hrun

def KeepsSlot (i : Fin numMaxTask) (s : Kernel) (op : Op) : Prop :=
  KillsFind s op ∧ ∀ t, op = .spawn t → freeSlot s.toTasks ≠ some i

theorem gone_run {i : Fin numMaxTask} (hs : SimS s a) (hT : Tidy a)
    (hz : Sleepers (fun _ => False) a)
    (hg : Gone (.task i) a) (hrun : ReflTransGen (Steps (KeepsSlot i)) s s') :
    ∃ a', SimS s' a' ∧ Tidy a' ∧ Sleepers (fun _ => False) a' ∧ Gone (.task i) a' := by
  induction hrun with
  | refl => exact ⟨a, hs, hT, hz, hg⟩
  | tail _ hstep ih =>
    obtain ⟨a₁, hs₁, hT₁, hz₁, hg₁⟩ := ih
    obtain ⟨op, hop, hrun⟩ := hstep
    obtain ⟨a₂, hs₂, hT₂, hz₂⟩ := killsFind_step hs₁ hT₁ hz₁ hop.1 hrun
    have hgone := step_invariant hs₁ hT₁ (hop.1.covered hs₁.1 hz₁) hg₁ (fun b x hTb hb hx hm => by
      refine gone_act hTb hb hx ?_
      rintro j pid e rfl hij
      obtain ⟨t, rfl, hfree⟩ := hm.cause
      cases hij
      exact hop.2 t rfl hfree) hrun
    obtain ⟨a₃, hs₃, -, hg₃⟩ := hgone
    exact ⟨a₂, hs₂, hT₂, hz₂, hs₃.1.unique hs₂.1 ▸ hg₃⟩

theorem Gone.members {p : PcbRef} (hs : Sim s a) (h : Gone p a) :
    s.status p = .exited ∧ ∀ q, p ∉ s.members q := by
  have hmem := hs.members
  obtain ⟨L, -, rfl⟩ := hs
  exact ⟨h.1, fun q hq => h.2 q (hmem q ▸ hq)⟩

/-- In every run in which each `do_kill` can do its work, the process with pid `n` has exited and is
in no queue after `do_kill(n)`, and this stays so until a `do_spawn` takes its slot. -/
theorem killed_stays_exited {i : Fin numMaxTask} (h : Reachable KillsFind s) (hk : Killable s n)
    (hi : slotOfPid n s.toTasks = some i) (hrun : step (.kill n) s = .ok s') :
    ∀ s'', ReflTransGen (Steps (KeepsSlot i)) s' s'' →
      s''.status (.task i) = .exited ∧ ∀ q, .task i ∉ s''.members q := by
  intro s'' hlater
  obtain ⟨a, hs, hT, hz⟩ := reachable_killsFind h
  obtain ⟨a', hs', hT', hz', hgone⟩ := kill_step hs hT hz hk hrun
  obtain ⟨a'', hs'', -, -, hg⟩ := gone_run hs' hT' hz' (hgone i hi) hlater
  exact hg.members hs''.1

theorem killable_of_mutex {i : Fin numMaxTask} {k : Nat} (h : Reachable KillsFind s)
    (hi : slotOfPid n s.toTasks = some i) (hst : s.status (.task i) = .blocked)
    (hm : .task i ∈ s.members (.mutex k)) (hk : k < maxLockNumTotal) : Killable s n := by
  obtain ⟨a, hs, hT, -⟩ := reachable_killsFind h
  intro j hj
  cases hi.symm.trans hj
  rw [hst]
  intro q hq
  rw [hs.1.members] at hm hq
  exact ⟨k, hk, hT.apart.eq_of_mem hq hm⟩

theorem killed_stays_exited_on_mutex :
    ∃ s s' s'', Reachable KillsFind s ∧ s.status (.task ⟨0, by decide⟩) = .blocked ∧
      step (.kill 2) s = .ok s' ∧ step (.release 0) s' = .ok s'' ∧
      s''.status (.task ⟨0, by decide⟩) = .exited := by
  let i : Fin numMaxTask := ⟨0, by decide⟩
  obtain ⟨s, hs, htest⟩ := exists_of_endsIn
    (t := fun s : Kernel => slotOfPid 2 s.toTasks = some i ∧ s.status (.task i) = .blocked ∧
      .task i ∈ s.members (.mutex 0) ∧ endsIn (fun s' => endsIn (fun _ => true) (step (.release 0)
        s'))
        (step (.kill 2) s) = true)
    (r := execute 1 [.schedule, .spawn ⟨1⟩, .acquire 0, .tick false, .acquire 0])
      (by decide +kernel)
  obtain ⟨hi, hst, hm, hkill⟩ := of_decide_eq_true htest
  obtain ⟨s', hs', hrel⟩ := exists_of_endsIn hkill
  obtain ⟨s'', hs'', -⟩ := exists_of_endsIn hrel
  have hreach : Reachable KillsFind s :=
    reachable_execute (by decide) (by simp [KillsFind, AnyCall]) hs
  have hk : Killable s 2 := killable_of_mutex hreach hi hst hm (by decide)
  have hlater : ReflTransGen (Steps (KeepsSlot i)) s' s'' :=
    .single ⟨.release 0, by simp [KeepsSlot, KillsFind, AnyCall], hs''⟩
  exact ⟨s, s', s'', hreach, hst, hs', hs'', (killed_stays_exited hreach hk hi hs' s'' hlater).1⟩

theorem killed_comes_back :
    ∃ s s' s'', Reachable AnyCall s ∧ slotOfPid 2 s.toTasks = some ⟨0, by decide⟩ ∧
      s.status (.task ⟨0, by decide⟩) = .blocked ∧ step (.kill 2) s = .ok s' ∧
      .task ⟨0, by decide⟩ ∈ s'.members (.semaphore 0) ∧
      s'.status (.task ⟨0, by decide⟩) = .exited ∧ step (.up 0) s' = .ok s'' ∧
      s''.status (.task ⟨0, by decide⟩) = .ready := by
  let i : Fin numMaxTask := ⟨0, by decide⟩
  obtain ⟨s, hs, htest⟩ := exists_of_endsIn
    (t := fun s : Kernel => slotOfPid 2 s.toTasks = some i ∧ s.status (.task i) = .blocked ∧
      endsIn (fun s' => .task i ∈ s'.members (.semaphore 0) ∧ s'.status (.task i) = .exited ∧
        endsIn (fun s'' => s''.status (.task i) = .ready) (step (.up 0) s') = true)
          (step (.kill 2) s) = true)
    (r := execute 1 [.schedule, .spawn ⟨1⟩, .tick false, .down 0]) (by decide +kernel)
  obtain ⟨hi, hst, hkill⟩ := of_decide_eq_true htest
  obtain ⟨s', hs', hup⟩ := exists_of_endsIn hkill
  obtain ⟨hm, hex, hup⟩ := of_decide_eq_true hup
  obtain ⟨s'', hs'', hst''⟩ := exists_of_endsIn hup
  exact ⟨s, s', s'', reachable_execute (by decide) (by simp [AnyCall]) hs, hi, hst, hs', hm, hex,
    hs'',
    of_decide_eq_true hst''⟩

end Ucas.Sched

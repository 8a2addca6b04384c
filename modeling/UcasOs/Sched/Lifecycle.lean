import UcasOs.Sched.State
import UcasOs.Lib.Simulation
import Mathlib.Data.List.Nodup

/-! The life of a process, as a transition system over the lists of queue members. Every kernel
operation is a sequence of these acts; an invariant of the acts is an invariant of the kernel. -/

namespace Ucas.Sched

abbrev Lists := QueueRef → List PcbRef

structure Abs where
  pid : PcbRef → Nat
  status : PcbRef → TaskStatus
  entryPoint : PcbRef → Nat
  current : PcbRef
  mutexStatus : MutexRef → LockStatus
  lock : PcbRef → Nat → Option MutexRef
  lockNum : PcbRef → Nat
  lists : Lists

def Tasks.abs (t : Tasks) (L : Lists) : Abs :=
  ⟨t.pid, t.status, t.entryPoint, t.currentRunning, t.mutexStatus, t.lock, t.lockNum, L⟩

inductive Act
  | wake (q : QueueRef) (p : PcbRef)
  | block (q : QueueRef)
  | sleep
  | preempt
  | retire
  | dispatch (p : PcbRef)
  | spawn (i : Fin numMaxTask) (pid entryPoint : Nat)
  | exit
  | leave (q : QueueRef) (p : PcbRef)
  | die (p : PcbRef)
  | clear (q : QueueRef)
  | setMutex (m : MutexRef) (st : LockStatus)
  | record (p : PcbRef) (lock : Nat → Option MutexRef) (num : Nat)

def enqueue (q : QueueRef) (p : PcbRef) (L : Lists) : Lists := Function.update L q (L q ++ [p])
def unlink (q : QueueRef) (p : PcbRef) (L : Lists) : Lists := Function.update L q ((L q).erase p)

def Unqueued (L : Lists) (p : PcbRef) : Prop := ∀ q, p ∉ L q

def Abs.setStatus (a : Abs) (p : PcbRef) (st : TaskStatus) : Abs :=
  { a with status := Function.update a.status p st }

def Enabled (a : Abs) : Act → Prop
  | .wake q p | .leave q p => p ∈ a.lists q
  | .block _ => Unqueued a.lists a.current ∧ a.status a.current ≠ .exited
  | .sleep => a.status a.current = .running
  | .preempt => a.status a.current = .running ∧ a.entryPoint a.current ≠ 0
  | .retire => a.status a.current = .running ∧ a.entryPoint a.current = 0
  | .dispatch p => p ∈ a.lists .ready ∧ a.status a.current ≠ .running
  | .spawn i _ _ => a.status (.task i) = .exited
  | .exit => Unqueued a.lists a.current ∧ a.lists (.waiting a.current) = []
  | .die p => Unqueued a.lists p
  | .clear _ | .setMutex _ _ | .record _ _ _ => True

def act (a : Abs) : Act → Abs
  | .wake q p => { a.setStatus p .ready with lists := enqueue .ready p (unlink q p a.lists) }
  | .block q => { a.setStatus a.current .blocked with lists := enqueue q a.current a.lists }
  | .sleep => { a.setStatus a.current .sleeping with lists := enqueue .sleeping a.current a.lists }
  | .preempt => { a.setStatus a.current .ready with lists := enqueue .ready a.current a.lists }
  | .retire => a.setStatus a.current .ready
  | .dispatch p => { a.setStatus p .running with current := p, lists := unlink .ready p a.lists }
  | .spawn i n e =>
    { a.setStatus (.task i) .created with
      pid := Function.update a.pid (.task i) n
      entryPoint := Function.update a.entryPoint (.task i) e
      lock := Function.update a.lock (.task i) fun _ => none
      lockNum := Function.update a.lockNum (.task i) 0
      lists := enqueue .ready (.task i) (Function.update a.lists (.waiting (.task i)) []) }
  | .exit => a.setStatus a.current .exited
  | .leave q p => { a with lists := unlink q p a.lists }
  | .die p => a.setStatus p .exited
  | .clear q => { a with lists := Function.update a.lists q [] }
  | .setMutex m st => { a with mutexStatus := Function.update a.mutexStatus m st }
  | .record p lock num =>
    { a with lock := Function.update a.lock p lock, lockNum := Function.update a.lockNum p num }

def Trans (A : Abs → Act → Prop) (a a' : Abs) : Prop := ∃ x, Enabled a x ∧ A a x ∧ a' = act a x

theorem path_left {A B : Abs → Act → Prop} {a b : Abs}
    (h : Relation.ReflTransGen (Trans fun a x => A a x ∧ B a x) a b) :
    Relation.ReflTransGen (Trans A) a b := by
  refine Relation.ReflTransGen.mono ?_ a b h
  rintro c d ⟨x, hx, hAB, hd⟩
  exact ⟨x, hx, hAB.1, hd⟩

structure Apart (L : Lists) : Prop where
  nodup : ∀ q, (L q).Nodup
  disjoint : ∀ q q', q ≠ q' → (L q).Disjoint (L q')

structure Tidy (a : Abs) : Prop where
  apart : Apart a.lists
  running : ∀ p, a.status p = .running → Unqueued a.lists p
  exited : ∀ p, a.status p = .exited → Unqueued a.lists p

section Lists
variable {L : Lists} {p x : PcbRef} {q q' : QueueRef}

theorem mem_enqueue : x ∈ enqueue q p L q' ↔ x ∈ L q' ∨ (q' = q ∧ x = p) := by
  by_cases h : q' = q
  · subst h
    simp [enqueue]
  · simp [enqueue, h]

theorem Apart.mem_unlink (hL : Apart L) (hp : p ∈ L q) :
    x ∈ unlink q p L q' ↔ x ∈ L q' ∧ x ≠ p := by
  by_cases h : q' = q
  · subst h
    simp [unlink, (hL.nodup q').mem_erase_iff, and_comm]
  · have : x ∈ L q' → x ≠ p := by
      rintro hx rfl
      exact hL.disjoint q' q h hx hp
    simpa [unlink, h] using this

theorem Apart.eq_of_mem (hL : Apart L) (h : p ∈ L q) (h' : p ∈ L q') : q = q' := by
  by_contra hne
  exact hL.disjoint q q' hne h h'

theorem Apart.update_sublist (hL : Apart L) {l : List PcbRef} (hl : l.Sublist (L q)) :
    Apart (Function.update L q l) := by
  refine ⟨fun j => ?_, Ucas.Lib.disjoint_update hL.disjoint fun j hj a ha haj => ?_⟩
  · by_cases hj : j = q
    · subst hj
      simpa using (hL.nodup j).sublist hl
    · simpa [hj] using hL.nodup j
  · exact hL.disjoint q j (Ne.symm hj) (hl.subset ha) haj

theorem Apart.unlink (hL : Apart L) : Apart (unlink q p L) := hL.update_sublist List.erase_sublist

theorem Apart.enqueue (hL : Apart L) (hp : Unqueued L p) : Apart (enqueue q p L) := by
  refine ⟨fun j => ?_, Ucas.Lib.disjoint_update hL.disjoint fun j hj a ha haj => ?_⟩
  · by_cases hj : j = q
    · subst hj
      simp only [Ucas.Sched.enqueue, Function.update_self]
      refine List.nodup_append.mpr ⟨hL.nodup j, List.nodup_singleton _, fun a ha b hb e => hp j ?_⟩
      rw [← List.mem_singleton.mp hb, ← e]
      exact ha
    · simpa [Ucas.Sched.enqueue, hj] using hL.nodup j
  · rcases List.mem_append.mp ha with ha | ha
    · exact hL.disjoint q j (Ne.symm hj) ha haj
    · exact hp j (List.mem_singleton.mp ha ▸ haj)

theorem Apart.unqueued_unlink (hL : Apart L) (hp : p ∈ L q) : Unqueued (Sched.unlink q p L) p :=
  fun _ h => ((hL.mem_unlink hp).mp h).2 rfl

theorem mem_update_nil (h : x ∈ Function.update L q [] q') : x ∈ L q' := by
  by_cases hq : q' = q
  · subst hq
    simp at h
  · simpa [hq] using h

end Lists

section Tidy
variable {a a' : Abs} {x : Act}

theorem Abs.setStatus_of_ne {p r : PcbRef} {st : TaskStatus} (h : p ≠ r) :
    (a.setStatus r st).status p = a.status p := Function.update_of_ne h ..

theorem Tidy.of_moved (h : Tidy a) (r : PcbRef) (hapart : Apart a'.lists)
    (hmem : ∀ p q, p ∈ a'.lists q → p ≠ r → p ∈ a.lists q)
    (hst : ∀ p, p ≠ r → a'.status p = a.status p)
    (hr : Unqueued a'.lists r ∨ (a'.status r ≠ .running ∧ a'.status r ≠ .exited)) : Tidy a' := by
  refine ⟨hapart, fun p hp q hq => ?_, fun p hp q hq => ?_⟩
  · by_cases hpr : p = r
    · subst hpr
      exact hr.elim (fun h => h q hq) fun h => h.1 hp
    · exact h.running p ((hst p hpr).symm.trans hp) q (hmem p q hq hpr)
  · by_cases hpr : p = r
    · subst hpr
      exact hr.elim (fun h => h q hq) fun h => h.2 hp
    · exact h.exited p ((hst p hpr).symm.trans hp) q (hmem p q hq hpr)

theorem Tidy.of_enqueue (h : Tidy a) {r : PcbRef} {st : TaskStatus} {q : QueueRef} {L : Lists}
    (hL : Apart L) (hmem : ∀ p q, p ∈ L q → p ∈ a.lists q) (hr : Unqueued L r)
    (hst : st ≠ .running ∧ st ≠ .exited) (a' : Abs)
    (ha' : a'.status = (a.setStatus r st).status) (hl : a'.lists = enqueue q r L) : Tidy a' := by
  refine h.of_moved r (hl ▸ hL.enqueue hr) (fun p q' hp hpr => ?_)
    (fun p hp => ha' ▸ Abs.setStatus_of_ne hp) (.inr ?_)
  · rw [hl, mem_enqueue] at hp
    exact hmem p q' (hp.resolve_right fun e => hpr e.2)
  · rw [ha']
    simpa [Abs.setStatus] using hst

theorem tidy_act (h : Tidy a) (hx : Enabled a x) : Tidy (act a x) := by
  have hcurrent : a.status a.current = .running → Unqueued a.lists a.current := h.running _
  cases x with
  | wake q p =>
    exact h.of_enqueue (r := p) h.apart.unlink (fun r q' hr => ((h.apart.mem_unlink hx).mp hr).1)
      (h.apart.unqueued_unlink hx) (by decide) _ rfl rfl
  | block q => exact h.of_enqueue h.apart (fun _ _ => id) hx.1 (by decide) _ rfl rfl
  | sleep => exact h.of_enqueue h.apart (fun _ _ => id) (hcurrent hx) (by decide) _ rfl rfl
  | preempt => exact h.of_enqueue h.apart (fun _ _ => id) (hcurrent hx.1) (by decide) _ rfl rfl
  | retire =>
    exact h.of_moved a.current h.apart (fun _ _ hp _ => hp) (fun p hp => Abs.setStatus_of_ne hp)
      (.inl (hcurrent hx.1))
  | dispatch p =>
    exact h.of_moved p h.apart.unlink (fun r q hr _ => ((h.apart.mem_unlink hx.1).mp hr).1)
      (fun r hr => Abs.setStatus_of_ne hr) (.inl (h.apart.unqueued_unlink hx.1))
  | spawn i n e =>
    have hap : Apart (Function.update a.lists (.waiting (.task i)) []) :=
      h.apart.update_sublist (List.nil_sublist _)
    exact h.of_enqueue hap (fun _ _ => mem_update_nil)
      (fun q hq => h.exited _ hx q (mem_update_nil hq)) (by decide) _ rfl rfl
  | exit =>
    exact h.of_moved a.current h.apart (fun _ _ hp _ => hp) (fun p hp => Abs.setStatus_of_ne hp)
      (.inl hx.1)
  | leave q p =>
    have hmem : ∀ r q', r ∈ unlink q p a.lists q' → r ∈ a.lists q' := fun r q' hr =>
      ((h.apart.mem_unlink hx).mp hr).1
    exact ⟨h.apart.unlink, fun r hr q' hq => h.running r hr q' (hmem r q' hq),
      fun r hr q' hq => h.exited r hr q' (hmem r q' hq)⟩
  | die p =>
    exact h.of_moved p h.apart (fun _ _ hp _ => hp) (fun r hr => Abs.setStatus_of_ne hr) (.inl hx)
  | clear q =>
    exact ⟨h.apart.update_sublist (List.nil_sublist _),
      fun r hr q' hq => h.running r hr q' (mem_update_nil hq),
      fun r hr q' hq => h.exited r hr q' (mem_update_nil hq)⟩
  | setMutex m st => exact ⟨h.apart, h.running, h.exited⟩
  | record p l n => exact ⟨h.apart, h.running, h.exited⟩

theorem tidy_path {A : Abs → Act → Prop} (h : Tidy a)
    (hpath : Relation.ReflTransGen (Trans A) a a') :
    Tidy a' :=
  Ucas.Lib.invariant_of_path (fun _ _ ha ⟨_, hx, _, hb⟩ => hb ▸ tidy_act ha hx) h hpath

end Tidy

def Settled (a : Abs) : Prop :=
  a.status a.current = .running ∨
    (a.current = .init ∧ a.status .init = .created ∧ Unqueued a.lists .init)

def Quiet (a : Abs) : Act → Prop
  | .block _ | .sleep | .preempt | .retire | .dispatch _ | .exit => False
  | .die p => p ≠ a.current
  | _ => True

theorem Settled.unqueued {a : Abs} (h : Settled a) (ht : Tidy a) : Unqueued a.lists a.current :=
  h.elim (ht.running _) fun h => h.1 ▸ h.2.2

theorem Settled.not_exited {a : Abs} (h : Settled a) : a.status a.current ≠ .exited := by
  rcases h with h | ⟨h, h', -⟩
  · simp [h]
  · simp [h, h']

theorem Settled.of_current {a a' : Abs} (h : Settled a) (hc : a'.current = a.current)
    (hs : a'.status a.current = a.status a.current)
    (hq : Unqueued a.lists a.current → Unqueued a'.lists a.current) : Settled a' := by
  rcases h with h | ⟨h1, h2, h3⟩
  · exact .inl (by rw [hc, hs, h])
  · rw [h1] at hc hs hq
    exact .inr ⟨hc, hs.trans h2, hq h3⟩

theorem settled_act {a : Abs} {x : Act} (ht : Tidy a) (h : Settled a) (hx : Enabled a x)
    (hq : Quiet a x) : Settled (act a x) := by
  have hcur := h.unqueued ht
  cases x with
  | wake q p =>
    have hne : a.current ≠ p := fun e => hcur q (e ▸ hx)
    refine h.of_current rfl (Abs.setStatus_of_ne hne) fun _ q' hm => ?_
    rcases mem_enqueue.mp hm with hm | ⟨-, hm⟩
    · exact hcur q' ((ht.apart.mem_unlink hx).mp hm).1
    · exact hne hm
  | spawn i n e =>
    have hne : a.current ≠ .task i := by
      intro hi
      rcases h with h | ⟨h, -⟩
      · rw [hi, hx] at h
        exact absurd h (by decide)
      · exact absurd (hi.symm.trans h) (by simp)
    refine h.of_current rfl (Abs.setStatus_of_ne hne) fun _ q' hm => ?_
    rcases mem_enqueue.mp hm with hm | ⟨-, hm⟩
    · exact hcur q' (mem_update_nil hm)
    · exact hne hm
  | leave q p =>
    exact h.of_current rfl rfl fun _ q' hm => hcur q' ((ht.apart.mem_unlink hx).mp hm).1
  | die p => exact h.of_current rfl (Abs.setStatus_of_ne (Ne.symm hq)) id
  | clear q => exact h.of_current rfl rfl fun _ q' hm => hcur q' (mem_update_nil hm)
  | setMutex m st => exact h.of_current rfl rfl id
  | record p l n => exact h.of_current rfl rfl id
  | block _ | sleep | preempt | retire | dispatch _ | exit => exact hq.elim

theorem quiet_path {A : Abs → Act → Prop} {a b : Abs} (hT : Tidy a) (hS : Settled a)
    (hpath : Relation.ReflTransGen (Trans fun a x => A a x ∧ Quiet a x) a b) :
    Tidy b ∧ Settled b ∧ b.current = a.current := by
  refine Ucas.Lib.invariant_of_path (I := fun b => Tidy b ∧ Settled b ∧ b.current = a.current) ?_
    ⟨hT, hS, rfl⟩ hpath
  rintro b _ ⟨hT, hS, hc⟩ ⟨x, hx, ⟨-, hq⟩, rfl⟩
  refine ⟨tidy_act hT hx, settled_act hT hS hx hq, Eq.trans ?_ hc⟩
  cases x with
  | dispatch p => exact hq.elim
  | _ => rfl

theorem not_running_of_wakes {A : Abs → Act → Prop} {a b : Abs}
    (h : a.status a.current ≠ .running)
    (hpath : Relation.ReflTransGen (Trans fun a x => A a x ∧ ∃ q p, x = .wake q p) a b) :
    b.status b.current ≠ .running := by
  refine Ucas.Lib.invariant_of_path (I := fun b => b.status b.current ≠ .running) ?_ h hpath
  rintro b _ hb ⟨_, -, ⟨-, q, p, rfl⟩, rfl⟩
  by_cases hp : b.current = p
  · simp [act, Abs.setStatus, hp]
  · simpa [act, Abs.setStatus, hp] using hb

def Kills (p : PcbRef) : Act → Prop
  | .wake _ _ | .leave _ _ | .setMutex _ _ | .record _ _ _ => True
  | .die p' => p' = p
  | _ => False

theorem kill_path {A : Abs → Act → Prop} {a b : Abs} {p : PcbRef}
    (hpath : Relation.ReflTransGen (Trans fun a x => A a x ∧ Kills p x) a b) :
    b.current = a.current ∧ b.pid = a.pid := by
  refine Ucas.Lib.invariant_of_path (I := fun b => b.current = a.current ∧ b.pid = a.pid) ?_
    ⟨rfl, rfl⟩ hpath
  rintro b _ hb ⟨x, -, ⟨-, hq⟩, rfl⟩
  cases x with
  | dispatch p => exact hq.elim
  | spawn i n e => exact hq.elim
  | _ => exact hb

theorem kill_path_settled {A : Abs → Act → Prop} {a b : Abs} {p : PcbRef} (hT : Tidy a)
    (hS : Settled a)
    (hp : p ≠ a.current) (hpath : Relation.ReflTransGen (Trans fun a x => A a x ∧ Kills p x) a b) :
    Settled b := by
  induction hpath with
  | refl => exact hS
  | @tail b c hpath hstep ih =>
    obtain ⟨x, hx, ⟨-, hk⟩, rfl⟩ := hstep
    refine settled_act (tidy_path hT hpath) ih hx ?_
    cases x with
    | die r =>
      rw [Quiet, (kill_path hpath).1, show r = p from hk]
      exact hp
    | _ => trivial

def Gone (p : PcbRef) (a : Abs) : Prop := a.status p = .exited ∧ Unqueued a.lists p

theorem gone_act {a : Abs} {x : Act} {p : PcbRef} (hT : Tidy a) (h : Gone p a) (hx : Enabled a x)
    (hp : ∀ i n e, x = .spawn i n e → p ≠ .task i) : Gone p (act a x) := by
  obtain ⟨hst, hun⟩ := h
  have hcur : a.status a.current = .running → p ≠ a.current := by
    rintro e rfl
    simp [hst] at e
  have hmove : ∀ r st, p ≠ r → (a.setStatus r st).status p = .exited := fun r st hr =>
    (Abs.setStatus_of_ne hr).trans hst
  have henq : ∀ {L : Lists} {q r}, Unqueued L p → p ≠ r → Unqueued (enqueue q r L) p :=
      fun hL hr q' hm =>
    (mem_enqueue.mp hm).elim (hL q') fun e => hr e.2
  cases x with
  | wake q r =>
    have hr : p ≠ r := fun e => hun q (e ▸ hx)
    exact ⟨hmove r _ hr, henq (fun q' hm => hun q' ((hT.apart.mem_unlink hx).mp hm).1) hr⟩
  | block q =>
    have hr : p ≠ a.current := fun e => hx.2 (e ▸ hst)
    exact ⟨hmove _ _ hr, henq hun hr⟩
  | sleep => exact ⟨hmove _ _ (hcur hx), henq hun (hcur hx)⟩
  | preempt => exact ⟨hmove _ _ (hcur hx.1), henq hun (hcur hx.1)⟩
  | retire => exact ⟨hmove _ _ (hcur hx.1), hun⟩
  | dispatch r =>
    exact ⟨hmove r _ fun e => hun _ (e ▸ hx.1), fun q' hm => hun q' ((hT.apart.mem_unlink hx.1).mp
      hm).1⟩
  | spawn i n e =>
    have hr := hp i n e rfl
    exact ⟨hmove _ _ hr, henq (fun q' hm => hun q' (mem_update_nil hm)) hr⟩
  | exit =>
    by_cases hr : p = a.current
    · exact ⟨by simp [act, Abs.setStatus, hr], hun⟩
    · exact ⟨hmove _ _ hr, hun⟩
  | leave q r => exact ⟨hst, fun q' hm => hun q' ((hT.apart.mem_unlink hx).mp hm).1⟩
  | die r =>
    by_cases hr : p = r
    · exact ⟨by simp [act, Abs.setStatus, hr], hun⟩
    · exact ⟨hmove _ _ hr, hun⟩
  | clear q => exact ⟨hst, fun q' hm => hun q' (mem_update_nil hm)⟩
  | setMutex m st => exact ⟨hst, hun⟩
  | record r l n => exact ⟨hst, hun⟩

theorem gone_path {A : Abs → Act → Prop} {a b : Abs} {p : PcbRef} (hT : Tidy a) (h : Gone p a)
    (hA : ∀ b x, A b x → ∀ i n e, x = .spawn i n e → p ≠ .task i)
    (hpath : Relation.ReflTransGen (Trans A) a b) : Gone p b := by
  refine (Ucas.Lib.invariant_of_path (I := fun b => Tidy b ∧ Gone p b) ?_ ⟨hT, h⟩ hpath).2
  rintro b _ ⟨hTb, hb⟩ ⟨x, hx, hAx, rfl⟩
  exact ⟨tidy_act hTb hx, gone_act hTb hb hx (hA b x hAx)⟩

theorem mutexStatus_act {a : Abs} {x : Act} {m : MutexRef} (hx : ∀ st, x ≠ .setMutex m st) :
    (act a x).mutexStatus m = a.mutexStatus m := by
  cases x with
  | setMutex m' st =>
    have hne : m ≠ m' := fun e => hx st (e ▸ rfl)
    simp [act, Function.update_of_ne hne]
  | _ => rfl

theorem mutexStatus_path {A : Abs → Act → Prop} {a b : Abs} {m : MutexRef}
    (hA : ∀ a x, A a x → ∀ st, x ≠ .setMutex m st) (hpath : Relation.ReflTransGen (Trans A) a b) :
    b.mutexStatus m = a.mutexStatus m := by
  refine Ucas.Lib.invariant_of_path (I := fun b => b.mutexStatus m = a.mutexStatus m) ?_ rfl hpath
  rintro b _ hb ⟨x, -, hAx, rfl⟩
  exact (mutexStatus_act (hA b x hAx)).trans hb

theorem waiters_act {a : Abs} {x : Act} {q : QueueRef} (hq : q ≠ .ready) (hq' : q ≠ .sleeping)
    (hx : x ≠ .block q) {p : PcbRef} (hp : p ∈ (act a x).lists q) : p ∈ a.lists q := by
  have henq : ∀ {q' r} {L : Lists}, q ≠ q' → p ∈ enqueue q' r L q → p ∈ L q := fun hne hm =>
    (mem_enqueue.mp hm).resolve_right fun e => hne e.1
  have hunlink : ∀ {q' r}, p ∈ unlink q' r a.lists q → p ∈ a.lists q := by
    intro q' r hm
    by_cases he : q = q'
    · subst he
      exact List.mem_of_mem_erase (by simpa [unlink] using hm)
    · simpa [unlink, he] using hm
  cases x with
  | wake q' r => exact hunlink (henq hq hp)
  | block q' => exact henq (fun e => hx (e ▸ rfl)) hp
  | sleep => exact henq hq' hp
  | preempt => exact henq hq hp
  | dispatch r => exact hunlink hp
  | spawn i n e => exact mem_update_nil (henq hq hp)
  | leave q' r => exact hunlink hp
  | clear q' => exact mem_update_nil hp
  | retire => exact hp
  | exit => exact hp
  | die r => exact hp
  | setMutex m st => exact hp
  | record r l n => exact hp

theorem waiters_path_mem {A : Abs → Act → Prop} {a b : Abs} {q : QueueRef} (hq : q ≠ .ready)
    (hq' : q ≠ .sleeping) (hA : ∀ a x, A a x → x ≠ .block q)
    (hpath : Relation.ReflTransGen (Trans A) a b) : ∀ p ∈ b.lists q, p ∈ a.lists q := by
  refine Ucas.Lib.invariant_of_path (I := fun b => ∀ p ∈ b.lists q, p ∈ a.lists q) ?_ (fun _ => id)
    hpath
  rintro b _ hb ⟨x, -, hAx, rfl⟩ p hp
  exact hb p (waiters_act hq hq' (hA b x hAx) hp)

theorem waiters_path {A : Abs → Act → Prop} {a b : Abs} {q : QueueRef} (hq : q ≠ .ready)
    (hq' : q ≠ .sleeping) (hA : ∀ a x, A a x → x ≠ .block q)
    (hpath : Relation.ReflTransGen (Trans A) a b) (hnil : a.lists q = []) : b.lists q = [] := by
  refine List.eq_nil_iff_forall_not_mem.mpr fun p hp => ?_
  simpa [hnil] using waiters_path_mem hq hq' hA hpath p hp

/-- The acts that leave the locks, their records and the exited processes alone, but for the end of
processes in `P`. -/
def Keeps (P : PcbRef → Prop) (a : Abs) : Act → Prop
  | .record _ _ _ | .spawn _ _ _ | .setMutex _ _ => False
  | .die r => P r
  | .exit => P a.current
  | _ => True

structure Kept (P : PcbRef → Prop) (a b : Abs) : Prop where
  mutexStatus : b.mutexStatus = a.mutexStatus
  lock : b.lock = a.lock
  lockNum : b.lockNum = a.lockNum
  exited : ∀ r, ¬ P r → (b.status r = .exited ↔ a.status r = .exited)

theorem Kept.refl (P : PcbRef → Prop) (a : Abs) : Kept P a a := ⟨rfl, rfl, rfl, fun _ _ => Iff.rfl⟩

theorem Kept.trans {P : PcbRef → Prop} {a b c : Abs} (h : Kept P a b) (h' : Kept P b c) :
    Kept P a c :=
  ⟨h'.mutexStatus.trans h.mutexStatus, h'.lock.trans h.lock, h'.lockNum.trans h.lockNum,
    fun r hr => (h'.exited r hr).trans (h.exited r hr)⟩

theorem setStatus_exited_iff {a : Abs} {p : PcbRef} {st : TaskStatus} (hp : a.status p ≠ .exited)
    (hst : st ≠ .exited) (r : PcbRef) :
    (a.setStatus p st).status r = .exited ↔ a.status r = .exited := by
  by_cases hr : r = p
  · subst hr
    simp [Abs.setStatus, hp, hst]
  · rw [Abs.setStatus_of_ne hr]

theorem keeps_act {P : PcbRef → Prop} {a : Abs} {x : Act} (hT : Tidy a) (hx : Enabled a x)
    (hk : Keeps P a x) : Kept P a (act a x) := by
  have hlive : ∀ {q p}, p ∈ a.lists q → a.status p ≠ .exited := fun hp e => hT.exited _ e _ hp
  have hcur : a.status a.current = .running → a.status a.current ≠ .exited := fun e => by simp [e]
  cases x with
  | wake q p => exact ⟨rfl, rfl, rfl, fun r _ => setStatus_exited_iff (hlive hx) (by decide) r⟩
  | block q => exact ⟨rfl, rfl, rfl, fun r _ => setStatus_exited_iff hx.2 (by decide) r⟩
  | sleep => exact ⟨rfl, rfl, rfl, fun r _ => setStatus_exited_iff (hcur hx) (by decide) r⟩
  | preempt => exact ⟨rfl, rfl, rfl, fun r _ => setStatus_exited_iff (hcur hx.1) (by decide) r⟩
  | retire => exact ⟨rfl, rfl, rfl, fun r _ => setStatus_exited_iff (hcur hx.1) (by decide) r⟩
  | dispatch p => exact ⟨rfl, rfl, rfl, fun r _ => setStatus_exited_iff (hlive hx.1) (by decide) r⟩
  | exit =>
    refine ⟨rfl, rfl, rfl, fun r hr => ?_⟩
    have hne : r ≠ a.current := fun e => hr (e ▸ hk)
    rw [show (act a .exit).status r = a.status r from Abs.setStatus_of_ne hne]
  | die p =>
    refine ⟨rfl, rfl, rfl, fun r hr => ?_⟩
    have hne : r ≠ p := fun e => hr (e ▸ hk)
    rw [show (act a (.die p)).status r = a.status r from Abs.setStatus_of_ne hne]
  | leave q p => exact ⟨rfl, rfl, rfl, fun _ _ => Iff.rfl⟩
  | clear q => exact ⟨rfl, rfl, rfl, fun _ _ => Iff.rfl⟩
  | spawn i n e => exact hk.elim
  | setMutex m st => exact hk.elim
  | record p l n => exact hk.elim

theorem keeps_path {P : PcbRef → Prop} {A : Abs → Act → Prop} {a b : Abs} (hT : Tidy a)
    (hA : ∀ a x, A a x → Keeps P a x) (hpath : Relation.ReflTransGen (Trans A) a b) :
    Kept P a b := by
  refine (Ucas.Lib.invariant_of_path (I := fun b => Tidy b ∧ Kept P a b) ?_ ⟨hT, .refl P a⟩ hpath).2
  rintro b _ ⟨hTb, hb⟩ ⟨x, hx, hAx, rfl⟩
  exact ⟨tidy_act hTb hx, hb.trans (keeps_act hTb hx (hA b x hAx))⟩

end Ucas.Sched

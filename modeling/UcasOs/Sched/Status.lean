import UcasOs.Sched.RefineOps

/-! Status and queue membership agree: what a control block says of its process is where the process
is. -/

namespace Ucas.Sched
open Ucas.Lib Relation

def Home : TaskStatus → QueueRef → Prop
  | .ready, q | .created, q => q = .ready
  | .sleeping, q => q = .sleeping
  | .blocked, q => q ≠ .ready ∧ q ≠ .sleeping
  | .running, _ | .exited, _ => False

structure Consistent (a : Abs) : Prop where
  home : ∀ p q, p ∈ a.lists q → Home (a.status p) q
  queued : ∀ i, a.status (.task i) = .running ∨ a.status (.task i) = .exited ∨
    ∃ q, PcbRef.task i ∈ a.lists q
  running : ∀ p, a.status p = .running → p = a.current
  waiting : ∀ p r, a.status p = .exited → r ∉ a.lists (.waiting p)
  entry : ∀ i, a.status (.task i) ≠ .exited → a.entryPoint (.task i) ≠ 0

variable {a a' : Abs} {x : Act}

structure Moved (a a' : Abs) (r : PcbRef) (place : Option QueueRef) : Prop where
  mem : ∀ p q, p ∈ a'.lists q ↔ (p ≠ r ∧ p ∈ a.lists q) ∨ (p = r ∧ place = some q)
  status : ∀ p, p ≠ r → a'.status p = a.status p
  entry : ∀ p, p ≠ r → a'.entryPoint p = a.entryPoint p

theorem Moved.of_enqueue {r : PcbRef} {q : QueueRef} {L : Lists}
    (hL : ∀ p q', p ∈ L q' ↔ p ≠ r ∧ p ∈ a.lists q') (hl : a'.lists = enqueue q r L)
    (hs : ∀ p, p ≠ r → a'.status p = a.status p) (he : ∀ p, p ≠ r → a'.entryPoint p = a.entryPoint
    p) :
    Moved a a' r (some q) := by
  refine ⟨fun p q' => ?_, hs, he⟩
  rw [hl, mem_enqueue, hL]
  simp only [Option.some.injEq, eq_comm (a := q), and_comm (a := q' = q)]

theorem Unqueued.mem_iff {L : Lists} {r : PcbRef} (h : Unqueued L r) (p : PcbRef) (q : QueueRef) :
    p ∈ L q ↔ p ≠ r ∧ p ∈ L q := ⟨fun hp => ⟨fun e => h q (e ▸ hp), hp⟩, And.right⟩

theorem Moved.of_nowhere {r : PcbRef} (h : Unqueued a.lists r) (hl : a'.lists = a.lists)
    (hs : ∀ p, p ≠ r → a'.status p = a.status p) (he : a'.entryPoint = a.entryPoint) :
    Moved a a' r none := by
  refine ⟨fun p q => ?_, hs, fun _ _ => he ▸ rfl⟩
  rw [hl, h.mem_iff p q]
  simp

theorem Consistent.of_moved {r : PcbRef} {o : Option QueueRef} (h : Consistent a)
    (hm : Moved a a' r o) (hhome : ∀ q, o = some q → Home (a'.status r) q)
    (hnone : o = none → a'.status r = .running ∨ a'.status r = .exited ∨ r = .init)
    (hrun : ∀ p, p ≠ r → a.status p = .running → p = a'.current)
    (hrun' : a'.status r = .running → r = a'.current)
    (hexit : a'.status r = .exited → ∀ p, p ∉ a.lists (.waiting r))
    (hwait : ∀ p, o = some (.waiting p) → a'.status p ≠ .exited)
    (hentry : ∀ i, PcbRef.task i = r → a'.status r ≠ .exited → a'.entryPoint r ≠ 0) :
    Consistent a' := by
  refine ⟨fun p q hp => ?_, fun i => ?_, fun p hp => ?_, fun p r' hp hr' => ?_, fun i hi => ?_⟩
  · rcases (hm.mem p q).mp hp with ⟨hne, hp⟩ | ⟨rfl, hq⟩
    · exact hm.status p hne ▸ h.home p q hp
    · exact hhome q hq
  · by_cases hi : PcbRef.task i = r
    · subst hi
      cases ho : o with
      | none =>
        rcases hnone ho with h | h | h
        · exact .inl h
        · exact .inr (.inl h)
        · cases h
      | some q => exact .inr (.inr ⟨q, (hm.mem _ q).mpr (.inr ⟨rfl, ho⟩)⟩)
    · rw [hm.status _ hi]
      exact (h.queued i).imp_right fun hq => hq.imp_right fun ⟨q, hq⟩ =>
        ⟨q, (hm.mem _ q).mpr (.inl ⟨hi, hq⟩)⟩
  · by_cases hpr : p = r
    · subst hpr
      exact hrun' hp
    · exact hrun p hpr (hm.status p hpr ▸ hp)
  · rcases (hm.mem r' _).mp hr' with ⟨-, hold⟩ | ⟨-, ho⟩
    · by_cases hpr : p = r
      · subst hpr
        exact hexit hp r' hold
      · exact h.waiting p r' (hm.status p hpr ▸ hp) hold
    · exact hwait p ho hp
  · by_cases hir : PcbRef.task i = r
    · exact hir ▸ hentry i hir (hir ▸ hi)
    · rw [hm.entry _ hir]
      exact h.entry i (hm.status _ hir ▸ hi)

def Calm (a : Abs) : Act → Prop
  | .block q => q ≠ .ready ∧ q ≠ .sleeping ∧ ∀ p, q = .waiting p → a.status p ≠ .exited
  | .spawn _ _ e => e ≠ 0
  | .clear q => a.lists q = []
  | .leave _ _ | .die _ => False
  | _ => True

section Acts
variable (hT : Tidy a) (h : Consistent a)
include h

theorem Consistent.of_enqueue {r : PcbRef} {st : TaskStatus} {q : QueueRef} {L : Lists}
    (hL : ∀ p q', p ∈ L q' ↔ p ≠ r ∧ p ∈ a.lists q') (hlive : a.status r ≠ .exited)
    (hhome : Home st q)
    (hwait : ∀ p, q = .waiting p → p ≠ r → a.status p ≠ .exited) :
    Consistent { a.setStatus r st with lists := enqueue q r L } := by
  have hst : (a.setStatus r st).status r = st := by simp [Abs.setStatus]
  have hne : st ≠ .running ∧ st ≠ .exited := by
    refine ⟨?_, ?_⟩ <;> rintro rfl <;> exact hhome
  refine h.of_moved (.of_enqueue hL rfl (fun p hp => Abs.setStatus_of_ne hp) fun _ _ => rfl) ?_
    (by simp)
    (fun p _ hp => h.running p hp) (fun e => absurd (hst.symm.trans e) hne.1)
    (fun e => absurd (hst.symm.trans e) hne.2) (fun p hp e => ?_) (fun i hi _ => ?_)
  · rintro q' ⟨⟩
    change Home ((a.setStatus r st).status r) q
    rwa [hst]
  · by_cases hpr : p = r
    · subst hpr
      exact hne.2 (hst.symm.trans e)
    · exact hwait p (by simpa using hp) hpr ((Abs.setStatus_of_ne hpr).symm.trans e)
  · rw [← hi]
    exact h.entry i (hi ▸ hlive)

theorem Consistent.of_frame (hl : a'.lists = a.lists) (hs : a'.status = a.status)
    (he : a'.entryPoint = a.entryPoint) (hc : a'.current = a.current) : Consistent a' := by
  obtain ⟨h1, h2, h3, h4, h5⟩ := h
  refine ⟨?_, ?_, ?_, ?_, ?_⟩
  · rwa [hl, hs]
  · rwa [hl, hs]
  · rwa [hs, hc]
  · rwa [hl, hs]
  · rwa [hs, he]

include hT

theorem consistent_act (hx : Enabled a x) (hc : Calm a x) : Consistent (act a x) := by
  have hrunning : a.status a.current = .running → a.status a.current ≠ .exited := fun e => by
    simp [e]
  cases x with
  | wake q p =>
    refine h.of_enqueue (fun r q' => by rw [hT.apart.mem_unlink hx, and_comm]) (fun e => ?_) rfl
      (by simp)
    simpa [e, Home] using h.home p q hx
  | block q =>
    exact h.of_enqueue hx.1.mem_iff hx.2 ⟨hc.1, hc.2.1⟩ fun p hp _ => hc.2.2 p hp
  | sleep => exact h.of_enqueue (hT.running _ hx).mem_iff (hrunning hx) rfl (by simp)
  | preempt => exact h.of_enqueue (hT.running _ hx.1).mem_iff (hrunning hx.1) rfl (by simp)
  | retire =>
    have hinit : a.current = .init := by
      cases hcur : a.current with
      | init => rfl
      | task i => exact absurd (hcur ▸ hx.2) (h.entry i (hcur ▸ hrunning hx.1))
    have hst : (act a .retire).status a.current = .ready := by simp [act, Abs.setStatus]
    refine h.of_moved (.of_nowhere (hT.running _ hx.1) rfl (fun p hp => Abs.setStatus_of_ne hp) rfl)
      (by simp)
      (fun _ => .inr (.inr hinit)) (fun p _ hp => h.running p hp) (fun _ => rfl) (by simp [hst])
        (by simp) ?_
    exact fun i hi => absurd (hi.trans hinit) (by simp)
  | dispatch p =>
    have hst : (act a (.dispatch p)).status p = .running := by simp [act, Abs.setStatus]
    have hlive : a.status p ≠ .exited := fun e => by simpa [e, Home] using h.home p _ hx.1
    refine h.of_moved (r := p) (o := none)
      ⟨fun r q => ?_, fun r hr => Abs.setStatus_of_ne hr, fun _ _ => rfl⟩ (by simp) (fun _ =>
        .inl hst)
      (fun r _ hr => ?_) (fun _ => rfl) (by simp [hst]) (by simp) (fun i hi _ => hi ▸ h.entry i
        (hi ▸ hlive))
    · rw [show (act a (.dispatch p)).lists = unlink .ready p a.lists from rfl, hT.apart.mem_unlink
        hx.1]
      simp [and_comm]
    · exact absurd (h.running r hr ▸ hr) hx.2
  | spawn i n e =>
    have hst : (act a (.spawn i n e)).status (.task i) = .created := by simp [act, Abs.setStatus]
    have hnil : Function.update a.lists (.waiting (.task i)) [] = a.lists := by
      rw [Function.update_eq_self_iff, eq_comm, List.eq_nil_iff_forall_not_mem]
      exact fun r => h.waiting _ r hx
    refine h.of_moved (r := .task i) (o := some .ready) (.of_enqueue (hT.exited _ hx).mem_iff ?_
      (fun p hp => Abs.setStatus_of_ne hp) fun p hp => Function.update_of_ne hp ..) ?_ (by simp)
      (fun p _ hp => h.running p hp) (by simp [hst]) (by simp [hst]) (by simp) (fun _ _ _ => ?_)
    · exact congrArg (enqueue .ready (.task i)) hnil
    · rintro q' ⟨⟩
      exact hst ▸ rfl
    · simpa [act] using (show e ≠ 0 from hc)
  | exit =>
    have hst : (act a .exit).status a.current = .exited := by simp [act, Abs.setStatus]
    exact h.of_moved (.of_nowhere hx.1 rfl (fun p hp => Abs.setStatus_of_ne hp) rfl) (by simp)
      (fun _ => .inr (.inl hst)) (fun p _ hp => h.running p hp) (fun _ => rfl)
        (fun _ p => by simp [hx.2])
      (by simp) (fun _ _ e => absurd hst e)
  | leave q p => exact hc.elim
  | die p => exact hc.elim
  | clear q =>
    have hnil : a.lists q = [] := hc
    exact h.of_frame (by simp [act, hnil]) rfl rfl rfl
  | setMutex m st => exact h.of_frame rfl rfl rfl rfl
  | record p l n => exact h.of_frame rfl rfl rfl rfl

end Acts

/-- What a control block says of its process, for the process in slot `i`. -/
structure StatusOk (s : Kernel) (i : Fin numMaxTask) : Prop where
  ready : s.status (.task i) = .ready ∨ s.status (.task i) = .created ↔
    (s.members .ready).count (.task i) = 1 ∧ ∀ q, q ≠ .ready → .task i ∉ s.members q
  sleeping : s.status (.task i) = .sleeping ↔
    (s.members .sleeping).count (.task i) = 1 ∧ ∀ q, q ≠ .sleeping → .task i ∉ s.members q
  blocked : s.status (.task i) = .blocked ↔
    ∃ q, q ≠ .ready ∧ q ≠ .sleeping ∧ (s.members q).count (.task i) = 1 ∧
      ∀ q', q' ≠ q → .task i ∉ s.members q'
  running : s.status (.task i) = .running ↔ s.currentRunning = .task i ∧ ∀ q, .task i ∉ s.members q
  exited : s.status (.task i) = .exited → (∀ q, .task i ∉ s.members q) ∧
    s.members (.waiting (.task i)) = []

theorem home_ready {st : TaskStatus} : Home st .ready ↔ st = .ready ∨ st = .created := by
  cases st <;> simp [Home]

theorem home_sleeping {st : TaskStatus} : Home st .sleeping ↔ st = .sleeping := by
  cases st <;> simp [Home]

theorem home_wait {st : TaskStatus} {q : QueueRef} (h : q ≠ .ready) (h' : q ≠ .sleeping) :
    Home st q ↔ st = .blocked := by
  cases st <;> simp [Home, h, h']

theorem count_eq_one_iff {L : Lists} (hL : Apart L) {p : PcbRef} {q : QueueRef} :
    ((L q).count p = 1 ∧ ∀ q', q' ≠ q → p ∉ L q') ↔ p ∈ L q := by
  refine ⟨fun h => List.count_pos_iff.mp (by omega), fun h => ⟨?_, fun q' hq' hp => ?_⟩⟩
  · exact List.count_eq_one_of_mem (hL.nodup q) h
  · exact hq' (hL.eq_of_mem hp h)

theorem statusOk_of_consistent {s : Kernel} (hs : SimS s a) (hT : Tidy a) (h : Consistent a)
    (i : Fin numMaxTask) : StatusOk s i := by
  obtain ⟨⟨L, hL, rfl⟩, hS⟩ := hs
  have hap : Apart L := Family.apart hL
  have hmem : s.members = L := funext fun q => members_eq hL q
  have hhome : ∀ q, .task i ∈ L q → Home (s.status (.task i)) q := h.home _
  have hqueued : s.status (.task i) ≠ .running → s.status (.task i) ≠ .exited →
      ∃ q, .task i ∈ L q ∧ Home (s.status (.task i)) q := by
    intro h1 h2
    obtain ⟨q, hq⟩ := ((h.queued i).resolve_left h1).resolve_left h2
    exact ⟨q, hq, hhome q hq⟩
  refine ⟨?_, ?_, ?_, ?_, ?_⟩
  · rw [hmem, count_eq_one_iff hap]
    refine ⟨fun hst => ?_, fun hq => home_ready.mp (hhome _ hq)⟩
    obtain ⟨q, hq, hh⟩ := hqueued (by rcases hst with e | e <;> simp [e])
      (by rcases hst with e | e <;> simp [e])
    have hready : q = .ready := by rcases hst with e | e <;> exact (e ▸ hh :)
    exact hready ▸ hq
  · rw [hmem, count_eq_one_iff hap]
    refine ⟨fun hst => ?_, fun hq => home_sleeping.mp (hhome _ hq)⟩
    obtain ⟨q, hq, hh⟩ := hqueued (by simp [hst]) (by simp [hst])
    have hsleep : q = .sleeping := by simpa [hst, Home] using hh
    exact hsleep ▸ hq
  · simp only [hmem, count_eq_one_iff hap]
    refine ⟨fun hst => ?_, fun ⟨q, h1, h2, hq⟩ => (home_wait h1 h2).mp (hhome q hq)⟩
    obtain ⟨q, hq, hh⟩ := hqueued (by simp [hst]) (by simp [hst])
    have hwait : q ≠ .ready ∧ q ≠ .sleeping := by simpa [hst, Home] using hh
    exact ⟨q, hwait.1, hwait.2, hq⟩
  · rw [hmem]
    refine ⟨fun hst => ⟨(h.running _ hst).symm, hT.running _ hst⟩, fun ⟨hcur, hun⟩ => ?_⟩
    rcases hS with hS | ⟨hS, -⟩
    · exact hcur ▸ hS
    · exact absurd (hcur.symm.trans hS) (by simp)
  · rw [hmem]
    exact fun hst => ⟨hT.exited _ hst, List.eq_nil_iff_forall_not_mem.mpr fun r => h.waiting _ r
      hst⟩

/-- The runs without `do_kill`: a process blocks on wait queues only, and an object is initialised
only while nobody waits on it. -/
def Orderly (s : Kernel) : Op → Prop
  | .kill _ => False
  | .block q | .unblockOne q | .unblockAll q => q ≠ .ready ∧ q ≠ .sleeping
  | .mutexInit m => s.members (.mutex m) = []
  | .semaphoreInit x _ => s.members (.semaphore x) = []
  | .conditionInit c => s.members (.condition c) = []
  | .barrierInit b _ => s.members (.barrier b) = []
  | _ => True

/-- Orderly calls that spawn only programs with an entry point and do not block on the
`waiting_queue` of a process that has exited. -/
def Proper (s : Kernel) (op : Op) : Prop :=
  Orderly s op ∧ match op with
  | .spawn t => t.entryPoint ≠ 0
  | .block (.waiting p) => s.status p ≠ .exited
  | _ => True

theorem Switch.calm {x : Act} (h : Switch x) : Calm a x := by
  cases x <;> trivial

theorem Releases.calm {x : Act} {m : MutexRef} (h : Releases m a' x) : Calm a x := by
  cases x <;> trivial

theorem Acquires.calm {x : Act} {m : MutexRef} {p : PcbRef} (h : Acquires m p x) : Calm a x := by
  cases x <;> trivial

theorem Proper.calm {s : Kernel} {op : Op} {x : Act} (hs : Sim s a) (hop : Proper s op)
    (h : May s a op a' x) : Calm a' x := by
  rcases h with h | h
  · exact h.calm
  obtain ⟨hop, hop'⟩ := hop
  cases op with
  | schedule => exact h.elim
  | tick recv =>
    obtain ⟨-, p, rfl⟩ := h
    trivial
  | resume =>
    obtain ⟨m, -, h | ⟨-, -, rfl⟩⟩ := h
    · exact h.calm
    · exact ⟨by simp, by simp, by simp⟩
  | spawn t =>
    obtain ⟨i, -, rfl⟩ := h
    exact hop'
  | exit =>
    rcases h with ⟨m, h⟩ | ⟨p, rfl⟩ | rfl
    · exact h.calm
    · trivial
    · trivial
  | waitpid n =>
    obtain ⟨i, -, hlive, rfl, rfl⟩ := h
    obtain ⟨L, -, rfl⟩ := hs
    exact ⟨by simp, by simp, fun p hp => by cases hp; exact hlive⟩
  | kill n => exact hop.elim
  | sleep t =>
    subst h
    trivial
  | block q =>
    obtain ⟨rfl, rfl⟩ := h
    obtain ⟨L, -, rfl⟩ := hs
    exact ⟨hop.1, hop.2, fun p hp => by subst hp; exact hop'⟩
  | unblockOne q =>
    obtain ⟨p, rfl⟩ := h
    trivial
  | unblockAll q =>
    obtain ⟨p, rfl⟩ := h
    trivial
  | mutexInit m =>
    rcases h with ⟨rfl, rfl⟩ | rfl
    · exact (hs.members _).symm.trans hop
    · trivial
  | acquire m =>
    rcases h with h | ⟨-, -, rfl⟩
    · exact h.calm
    · exact ⟨by simp, by simp, by simp⟩
  | release m => exact h.calm
  | semaphoreInit n val =>
    obtain ⟨rfl, rfl⟩ := h
    exact (hs.members _).symm.trans hop
  | up n =>
    obtain ⟨p, rfl⟩ := h
    trivial
  | down n =>
    subst h
    exact ⟨by simp, by simp, by simp⟩
  | conditionInit c =>
    obtain ⟨rfl, rfl⟩ := h
    exact (hs.members _).symm.trans hop
  | wait m c =>
    rcases h with rfl | h
    · exact ⟨by simp, by simp, by simp⟩
    · exact h.calm
  | signal c =>
    obtain ⟨p, rfl⟩ := h
    trivial
  | broadcast c =>
    obtain ⟨p, rfl⟩ := h
    trivial
  | barrierInit b goal =>
    obtain ⟨rfl, rfl⟩ := h
    exact (hs.members _).symm.trans hop
  | barrierWait b =>
    rcases h with rfl | ⟨p, rfl⟩
    · exact ⟨by simp, by simp, by simp⟩
    · trivial

theorem consistent_initAbs {e : Nat} (he : e ≠ 0) : Consistent (initAbs e) := by
  refine ⟨fun p q hp => ?_, fun i => ?_, fun p hp => ?_, fun p r _ hr => ?_, fun i hi => ?_⟩
  · obtain ⟨rfl, rfl⟩ := mem_initAbs.mp hp
    simp [initAbs, Home]
  · by_cases hi : PcbRef.task i = shell
    · exact .inr (.inr ⟨.ready, mem_initAbs.mpr ⟨rfl, hi⟩⟩)
    · exact .inr (.inl (by simp [initAbs, hi]))
  · simp only [initAbs] at hp
    split at hp <;> cases hp
  · simpa using (mem_initAbs.mp hr).1
  · by_cases hi' : PcbRef.task i = shell
    · simpa [initAbs, hi'] using he
    · simp [initAbs, hi'] at hi

/-- In every state that a run of proper calls reaches, the status of every process agrees with the
queue it is in. -/
theorem status_agrees_with_queues {s : Kernel} (h : Reachable Proper s) (i : Fin numMaxTask) :
    StatusOk s i := by
  obtain ⟨e, s₀, he, hinit, hrun⟩ := h
  suffices ∃ a, SimS s a ∧ Tidy a ∧ Consistent a by
    obtain ⟨a, hs, hT, hc⟩ := this
    exact statusOk_of_consistent hs hT hc i
  induction hrun with
  | refl => exact ⟨_, (initPcb_sim hinit).1, (initPcb_sim hinit).2, consistent_initAbs he⟩
  | @tail s s' _ hstep ih =>
    obtain ⟨a, hs, hT, hc⟩ := ih
    obtain ⟨op, hop, hrun⟩ := hstep
    have hcov : Covered s a op := by
      cases op with
      | kill n => exact hop.1.elim
      | unblockAll q => exact hop.1.1
      | _ => trivial
    exact step_invariant hs hT hcov hc
      (fun b x hTb hb hx hm => consistent_act hTb hb hx (hop.calm hs.1 hm)) hrun

theorem status_agrees_with_queues_blocked :
    ∃ s, Reachable Proper s ∧ s.status shell = .blocked ∧ StatusOk s ⟨1, by decide⟩ := by
  obtain ⟨s, hs, htest⟩ := exists_of_endsIn (t := fun s : Kernel => s.status shell = .blocked)
    (r := execute 1 [.schedule, .spawn ⟨1⟩, .down 0]) (by decide +kernel)
  have hreach : Reachable Proper s := reachable_execute (by decide) (by simp [Proper, Orderly]) hs
  exact ⟨s, hreach, by simpa using htest, status_agrees_with_queues hreach _⟩

theorem status_disagrees_with_queues :
    (∃ s, Reachable Orderly s ∧ s.status (.task ⟨0, by decide⟩) = .ready ∧
      ¬ StatusOk s ⟨0, by decide⟩) ∧
    ∃ s, Reachable Orderly s ∧ s.status (.task ⟨5, by decide⟩) = .exited ∧
      ¬ StatusOk s ⟨5, by decide⟩ := by
  refine ⟨?_, ?_⟩
  · obtain ⟨s, hs, htest⟩ := exists_of_endsIn
      (t := fun s : Kernel => s.status (.task ⟨0, by decide⟩) = .ready ∧ s.members .ready = [])
      (r := execute 1 [.schedule, .spawn ⟨0⟩, .tick false, .tick false]) (by decide +kernel)
    obtain ⟨hst, hmem⟩ : _ ∧ _ := by simpa using htest
    refine ⟨s, reachable_execute (by decide) (by simp [Orderly]) hs, hst, fun h => ?_⟩
    simpa [hmem] using (h.ready.mp (.inl hst)).1
  · obtain ⟨s, hs, htest⟩ := exists_of_endsIn
      (t := fun s : Kernel => s.status (.task ⟨5, by decide⟩) = .exited ∧
        s.members (.waiting (.task ⟨5, by decide⟩)) = [shell])
      (r := execute 1 [.schedule, .spawn ⟨1⟩, .block (.waiting (.task ⟨5, by decide⟩))])
        (by decide +kernel)
    obtain ⟨hst, hmem⟩ : _ ∧ _ := by simpa using htest
    refine ⟨s, reachable_execute (by decide) (by simp [Orderly]) hs, hst, fun h => ?_⟩
    simpa [hmem] using (h.exited hst).2

end Ucas.Sched

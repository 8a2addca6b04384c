import UcasOs.Sched.Kill
import UcasOs.Sched.Mutex
import Mathlib.Data.Fintype.Card

/-! The record of held mutexes, `lock[]` and `lock_num`. `do_mutex_lock_acquire` writes it and
`do_exit` and `do_kill` read it; `do_mutex_lock_release` never erases the caller's entry, and clears
the records of the waiters instead. -/

namespace Ucas.Sched
open Ucas.Lib Relation

variable {s s' : Kernel} {a b : Abs} {x : Act} {L : Lists} {p : PcbRef} {m : MutexRef} {op : Op}

abbrev Held := PcbRef → Finset MutexRef

structure LockConfig where
  kernel : Kernel
  held : Held

def heldAfter (s : Kernel) (op : Op) (held : Held) : Held :=
  match acquiring s op, op with
  | some m, _ =>
    if s.mutexStatus m = .unlocked then
      Function.update held s.currentRunning (insert m (held s.currentRunning))
    else held
  | none, .release m | none, .wait m _ =>
    Function.update held s.currentRunning ((held s.currentRunning).erase m)
  | none, .exit => Function.update held s.currentRunning ∅
  | none, .kill n =>
    match slotOfPid n s.toTasks with
    | some i => Function.update held (.task i) ∅
    | none => held
  | none, _ => held

def lockStep (c : LockConfig) (op : Op) : Except Fault LockConfig := do
  return ⟨← step op c.kernel, heldAfter c.kernel op c.held⟩

/-- Calls of processes that release only what they hold and hold at most `LOCK_MAX_NUM` mutexes; a
mutex is initialised only while nobody holds it. -/
def LockCall (c : LockConfig) (op : Op) : Prop :=
  (acquiring c.kernel op ≠ none → (c.held c.kernel.currentRunning).card < lockMaxNum) ∧
      match op with
  | .block q | .unblockOne q | .unblockAll q => q ≠ .ready ∧ q ≠ .sleeping
  | .mutexInit m => c.kernel.mutexStatus m = .unlocked
  | .release m | .wait m _ => m ∈ c.held c.kernel.currentRunning
  | _ => True

def dying (s : Kernel) : Op → Option PcbRef
  | .exit => some s.currentRunning
  | .kill n => (slotOfPid n s.toTasks).bind fun i =>
      if s.status (.task i) = .exited then none else some (.task i)
  | _ => none

def Recorded (lock : Nat → Option MutexRef) (m : MutexRef) : Prop :=
  ∃ i < lockMaxNum, lock i = some m

instance (lock : Nat → Option MutexRef) (m : MutexRef) : Decidable (Recorded lock m) :=
  inferInstanceAs (Decidable (∃ i < lockMaxNum, lock i = some m))

/-- Nobody calls `do_mutex_lock_release`, no other process waits for a mutex that a dying process
has recorded, and `do_kill` finds its victim. -/
def Unreleased (c : LockConfig) (op : Op) : Prop :=
  LockCall c op ∧ (∀ m, op ≠ .release m) ∧ (∀ m n, op ≠ .wait m n) ∧ (∀ n, op = .kill n →
    Killable c.kernel n) ∧
    ∀ p, dying c.kernel op = some p → ∀ m, Recorded (c.kernel.lock p) m →
      ∀ r ∈ c.kernel.members (.mutex m), r = p

def LockReachable (P : LockConfig → Op → Prop) (c : LockConfig) : Prop :=
  ∃ e s₀, initPcb e = .ok s₀ ∧
    ReflTransGen (fun c c' => ∃ op, P c op ∧ lockStep c op = .ok c') ⟨s₀, fun _ => ∅⟩ c

section Release

theorem drain_of_isEmpty {q : QueueRef} {body : Kernel → Except Fault Kernel} {n : Nat}
    (h : queueIsEmpty q s.queues = true) : drain q body n s = .ok s := by
  cases n <;> rw [drain, if_pos h]

theorem doMutexLockRelease_eq (hL : Family s.queues L) (hm : L (.mutex m) = []) :
    doMutexLockRelease m s = .ok
    { s with mutexStatus := Function.update s.mutexStatus m .unlocked } := by
  rw [doMutexLockRelease]
  split
  · have hitems : queueItems (.mutex m) s.queues = .ok [] := by
      rw [queueItems, (hL.repr _).head, itemsFrom_seg (hL.repr _).seg (Family.length_lt hL), hm]
    simp only [hitems, bind, Except.bind, List.foldl_nil, doUnblockAll]
    exact drain_of_isEmpty ((queueIsEmpty_iff hL).mpr hm)
  · next hne =>
    have hun : s.mutexStatus m = .unlocked := by
      cases h : s.mutexStatus m
      · rfl
      · exact absurd h hne
    rw [← hun, Function.update_eq_self]

def freed (lock : Nat → Option MutexRef) (st : MutexRef → LockStatus) (m : MutexRef) : LockStatus :=
  if Recorded lock m then .unlocked else st m

theorem releaseAll_eq (hL : Family s.queues L) (hm : ∀ m, Recorded (s.lock p) m →
    L (.mutex m) = []) :
    releaseAll p s = .ok { s with mutexStatus := freed (s.lock p) s.mutexStatus } := by
  have key : ∀ (l : List Nat) (s : Kernel), Family s.queues L →
      (∀ i ∈ l, ∀ m, s.lock p i = some m → L (.mutex m) = []) →
      l.foldlM (releaseRecord p) s = .ok { s with
        mutexStatus := fun m => if ∃ i ∈ l, s.lock p i = some m then .unlocked else s.mutexStatus
            m } := by
    intro l
    induction l with
    | nil => intro s _ _; simp [pure, Except.pure]
    | cons i l ih =>
      intro s hL hnil
      rw [List.foldlM_cons, releaseRecord]
      cases hi : s.lock p i with
      | none =>
        simp only [bind, Except.bind]
        rw [ih s hL fun j hj => hnil j (List.mem_cons_of_mem _ hj)]
        simp [hi]
      | some m =>
        simp only [doMutexLockRelease_eq hL (hnil i List.mem_cons_self m hi), bind, Except.bind]
        refine (ih { s with mutexStatus := Function.update s.mutexStatus m .unlocked } hL
          fun j hj => hnil j (List.mem_cons_of_mem _ hj)).trans ?_
        congr 3
        funext m'
        by_cases hmm : m' = m
        · subst hmm
          simp [hi]
        · simp [hi, hmm, Ne.symm hmm]
  rw [releaseAll, key _ s hL fun i hi m h => hm m ⟨i, List.mem_range.mp hi, h⟩]
  congr 3
  funext m
  exact if_congr (by simp [Recorded]) rfl rfl

end Release

structure Dies (p : PcbRef) (a b : Abs) : Prop where
  mutexStatus : b.mutexStatus = freed (a.lock p) a.mutexStatus
  lock : b.lock = a.lock
  lockNum : b.lockNum = a.lockNum
  others : ∀ r, r ≠ p → (b.status r = .exited ↔ a.status r = .exited)
  gone : b.status p = .exited

theorem Switch.keeps {P : PcbRef → Prop} (h : Switch x) : Keeps P a x := by
  cases x <;> trivial

theorem exit_dies (hs : SimS s a) (hT : Tidy a)
    (hw : ∀ m, Recorded (s.lock s.currentRunning) m → ∀ r ∈ s.members (.mutex m),
    r = s.currentRunning)
    (hrun : step .exit s = .ok s') : ∃ a', SimS s' a' ∧ Tidy a' ∧ Dies s.currentRunning a a' := by
  obtain ⟨⟨L, hL, rfl⟩, hS⟩ := hs
  have hun : Unqueued L s.currentRunning := hS.unqueued hT
  have hnil : ∀ m, Recorded (s.lock s.currentRunning) m → L (.mutex m) = [] := by
    intro m hm
    refine List.eq_nil_iff_forall_not_mem.mpr fun r hr => ?_
    have hrc := hw m hm r (by rwa [members_eq hL])
    exact hun _ (hrc ▸ hr)
  rw [step] at hrun
  cases hctx : s.kernelContext s.currentRunning with
  | acquire m => simp [hctx] at hrun
  | user =>
    simp only [hctx, exec, doExit, releaseAll_eq hL hnil, bind, Except.bind] at hrun
    let s₁ : Kernel := { s with mutexStatus := freed (s.lock s.currentRunning) s.mutexStatus }
    have hT₁ : Tidy (s₁.toTasks.abs L) := ⟨hT.apart, hT.running, hT.exited⟩
    have hr := finishExit_runs (s := s₁) (A := Keeps (· = s.currentRunning)) hL hT₁ hS
      (fun _ _ h => h.keeps) (fun _ _ => trivial) fun _ h => h
    rw [show finishExit s₁.currentRunning s₁ = .ok s' from hrun] at hr
    obtain ⟨a', hpath, hs', hgone⟩ := hr
    obtain ⟨h1, h2, h3, h4⟩ := keeps_path hT₁ (fun _ _ h => h) hpath
    exact ⟨a', hs', tidy_path hT₁ hpath, h1, h2, h3, h4, hgone.1⟩

theorem leaveQueue_frame (hL : Family s.queues L) (hT : Tidy (s.toTasks.abs L))
    (hp : Removable (s.toTasks.abs L) p) (hrun : leaveQueue p s = .ok s') :
    ∃ L', Family s'.queues L' ∧ Tidy (s'.toTasks.abs L') ∧ Unqueued L' p ∧
      Kept (fun _ => False) (s.toTasks.abs L) (s'.toTasks.abs L') ∧
      ∀ m, ∀ r ∈ L' (.mutex m), r ∈ L (.mutex m) := by
  obtain ⟨_, hpath, ⟨L', hL', rfl⟩, hun⟩ :=
    (leaveQueue_runs (A := fun _ x => ∃ q, x = .leave q p) hL hT hp
    fun _ q => ⟨q, rfl⟩).of_ok hrun
  refine ⟨L', hL', tidy_path hT hpath, hun, keeps_path hT ?_ hpath, fun m => ?_⟩
  · rintro a x ⟨q, rfl⟩
    trivial
  · exact waiters_path_mem (by simp) (by simp) (by rintro a x ⟨q, rfl⟩; simp) hpath

theorem killPcb_dies (hL : Family s.queues L) (hT : Tidy (s.toTasks.abs L))
    (hp : Removable (s.toTasks.abs L) p) (hlive : s.status p ≠ .exited)
    (hw : ∀ m, Recorded (s.lock p) m → ∀ r ∈ L (.mutex m), r = p) (hrun : killPcb p s = .ok s') :
    ∃ a', Sim s' a' ∧ Tidy a' ∧ Gone p a' ∧ Dies p (s.toTasks.abs L) a' := by
  rw [killPcb, if_pos hlive] at hrun
  obtain ⟨s₁, hrun₁, hrun⟩ := exists_of_bind_ok hrun
  obtain ⟨L₁, hL₁, hT₁, hun, ⟨h1, h2, h3, h4⟩, hmem⟩ := leaveQueue_frame hL hT hp hrun₁
  have hlock : s₁.lock = s.lock := h2
  have hnil : ∀ m, Recorded (s₁.lock p) m → L₁ (.mutex m) = [] := by
    intro m hm
    refine List.eq_nil_iff_forall_not_mem.mpr fun r hr => ?_
    have hrp := hw m (hlock ▸ hm) r (hmem m r hr)
    exact hun _ (hrp ▸ hr)
  rw [releaseAll_eq (s := { s₁ with status := Function.update s₁.status p .exited }) hL₁
    hnil] at hrun
  let s₂ : Kernel := { s₁ with
    status := Function.update s₁.status p .exited
    mutexStatus := freed (s₁.lock p) s₁.mutexStatus }
  have hT₂ : Tidy (s₂.toTasks.abs L₁) := by
    have h := tidy_act (x := .die p) hT₁ hun
    exact ⟨h.apart, h.running, h.exited⟩
  have hgone : Gone p (s₂.toTasks.abs L₁) := ⟨by simp [s₂, Tasks.abs], hun⟩
  -- What is left of `do_kill` wakes the processes that wait for the victim.
  obtain ⟨a', hpath, hs'⟩ :=
    (drain_fuel_runs (s := s₂) (A := fun _ x => ∃ r, x = .wake (.waiting p) r)
    (wakeHead_wakes (.waiting p)) (by simp) (fun _ r => ⟨r, rfl⟩) hL₁).of_ok hrun
  obtain ⟨k1, k2, k3, k4⟩ := keeps_path (P := fun _ => False) hT₂ (by rintro a x ⟨r, rfl⟩; trivial)
    hpath
  have hgone' := gone_path hT₂ hgone (by rintro a x ⟨r, rfl⟩; simp) hpath
  refine ⟨a', hs', tidy_path hT₂ hpath, hgone', ?_, k2.trans h2, k3.trans h3, fun r hr => ?_,
    hgone'.1⟩
  · rw [k1]
    change freed (s₁.lock p) s₁.mutexStatus = freed (s.lock p) s.mutexStatus
    rw [show s₁.mutexStatus = s.mutexStatus from h1, hlock]
  · refine (k4 r fun h => h).trans (Iff.trans ?_ (h4 r fun h => h))
    simp [s₂, Tasks.abs, hr]

theorem Dies.trans_kept {c : Abs} (h : Dies p a b) (hk : Kept (fun _ => False) b c) : Dies p a c :=
  ⟨hk.mutexStatus.trans h.mutexStatus, hk.lock.trans h.lock, hk.lockNum.trans h.lockNum,
    fun r hr => (hk.exited r fun h => h).trans (h.others r hr), (hk.exited p fun h => h).mpr h.gone⟩

theorem kill_dies {n : Nat} {i : Fin numMaxTask} (hs : Sim s a) (hT : Tidy a)
    (hp : Removable a (.task i))
    (hi : slotOfPid n s.toTasks = some i) (hlive : s.status (.task i) ≠ .exited)
    (hw : ∀ m, Recorded (s.lock (.task i)) m → ∀ r ∈ s.members (.mutex m), r = .task i)
    (hrun : step (.kill n) s = .ok s') : ∃ a', Sim s' a' ∧ Dies (.task i) a a' := by
  obtain ⟨L, hL, rfl⟩ := hs
  have hw' : ∀ m, Recorded (s.lock (.task i)) m → ∀ r ∈ L (.mutex m), r = .task i :=
      fun m hm r hr =>
    hw m hm r (by rwa [members_eq hL])
  rw [step] at hrun
  cases hctx : s.kernelContext s.currentRunning with
  | acquire m => simp [hctx] at hrun
  | user =>
    simp only [hctx, exec, doKill, hi] at hrun
    obtain ⟨s₁, hrun₁, hrun⟩ := exists_of_bind_ok hrun
    obtain ⟨_, ⟨L₁, hL₁, rfl⟩, hT₁, -, hdies⟩ := killPcb_dies hL hT hp hlive hw' hrun₁
    split at hrun
    · obtain ⟨a', hpath, hs'⟩ := (doScheduler_runs (A := fun _ => Switch) (fun _ _ h => h) .user hL₁
        hT₁).of_ok hrun
      exact ⟨a', hs'.1, hdies.trans_kept (keeps_path hT₁ (fun _ _ h => h.keeps) hpath)⟩
    · cases hrun
      exact ⟨_, ⟨L₁, hL₁, rfl⟩, hdies⟩

/-- The record of a process lists what it holds: each mutex once, and `lock_num` counts them. -/
structure RecordOk (lock : Nat → Option MutexRef) (num : Nat) (held : Finset MutexRef) : Prop where
  mem : ∀ m, Recorded lock m ↔ m ∈ held
  once : ∀ i < lockMaxNum, ∀ j < lockMaxNum, ∀ m, lock i = some m → lock j = some m → i = j
  num : num = held.card

section Record
variable {lock : Nat → Option MutexRef} {num : Nat} {held : Finset MutexRef}

theorem RecordOk.empty : RecordOk (fun _ => none) 0 ∅ := ⟨by simp [Recorded], by simp, by simp⟩

theorem RecordOk.exists_free (h : RecordOk lock num held) (hc : held.card < lockMaxNum) :
    ∃ i < lockMaxNum, (List.range lockMaxNum).find? (fun i => (lock i).isNone) = some i ∧
    lock i = none := by
  cases hf : (List.range lockMaxNum).find? fun i => (lock i).isNone with
  | some i =>
    exact ⟨i, List.mem_range.mp (List.mem_of_find?_eq_some hf),
      rfl, by simpa using List.find?_some hf⟩
  | none =>
    have hfull : ∀ i < lockMaxNum, ∃ m, lock i = some m := by
      intro i hi
      have := List.find?_eq_none.mp hf i (List.mem_range.mpr hi)
      exact Option.ne_none_iff_exists'.mp (by simpa using this)
    have hle : (Finset.range lockMaxNum).card ≤ held.card := by
      refine Finset.card_le_card_of_injOn (fun i => (lock i).getD 0) (fun i hi => ?_)
        (fun i hi j hj e => ?_)
      · obtain ⟨m, hm⟩ := hfull i (Finset.mem_range.mp hi)
        exact (h.mem _).mp ⟨i, Finset.mem_range.mp hi, by simp [hm]⟩
      · have hi := Finset.mem_range.mp hi
        have hj := Finset.mem_range.mp hj
        obtain ⟨m, hm⟩ := hfull i hi
        obtain ⟨m', hm'⟩ := hfull j hj
        have hmm : m = m' := by simpa [hm, hm'] using e
        exact h.once i hi j hj m hm (hmm ▸ hm')
    rw [Finset.card_range] at hle
    omega

theorem RecordOk.record (h : RecordOk lock num held) (hc : held.card < lockMaxNum) {i : Nat}
    (hi : i < lockMaxNum) (hfree : lock i = none) (hm : m ∉ held) :
    RecordOk (Function.update lock i (some m)) (word (num + 1)) (insert m held) := by
  have hother : ∀ {j m'}, Function.update lock i (some m) j = some m' → j ≠ i → lock j = some m' :=
    fun hj hne => by simpa [hne] using hj
  have hself : ∀ {m'}, Function.update lock i (some m) i = some m' → m' = m := fun hj => by
    simpa using hj.symm
  refine ⟨fun m' => ⟨?_, fun hm' => ?_⟩, fun j hj k hk m' hjm hkm => ?_, ?_⟩
  · rintro ⟨j, hj, hjm⟩
    by_cases hji : j = i
    · subst hji
      simp [hself hjm]
    · exact Finset.mem_insert_of_mem ((h.mem m').mp ⟨j, hj, hother hjm hji⟩)
  · rcases Finset.mem_insert.mp hm' with rfl | hm'
    · exact ⟨i, hi, by simp⟩
    · obtain ⟨j, hj, hjm⟩ := (h.mem m').mpr hm'
      have hji : j ≠ i := by
        rintro rfl
        simp [hfree] at hjm
      exact ⟨j, hj, by simpa [hji] using hjm⟩
  · have hnot : ∀ {l}, l < lockMaxNum → lock l ≠ some m := fun hl e => hm ((h.mem m).mp ⟨_, hl, e⟩)
    by_cases hji : j = i <;> by_cases hki : k = i
    · rw [hji, hki]
    · subst hji
      exact absurd (hself hjm ▸ hother hkm hki) (hnot hk)
    · subst hki
      exact absurd (hself hkm ▸ hother hjm hji) (hnot hj)
    · exact h.once j hj k hk m' (hother hjm hji) (hother hkm hki)
  · rw [Finset.card_insert_of_notMem hm, h.num, word, Nat.mod_eq_of_lt]
    have : lockMaxNum < 2 ^ 32 := by decide
    omega

end Record

structure LockInv (a : Abs) (held : Held) : Prop where
  record : ∀ p, a.status p ≠ .exited → RecordOk (a.lock p) (a.lockNum p) (held p)
  locked : ∀ p m, m ∈ held p → a.mutexStatus m = .locked ∧ a.status p ≠ .exited
  unique : ∀ p p' m, m ∈ held p → m ∈ held p' → p = p'

section Preserved
variable {held : Held}

theorem LockInv.kept (h : LockInv a held) (hk : Kept (fun _ => False) a b) : LockInv b held := by
  obtain ⟨h1, h2, h3, h4⟩ := hk
  have hlive : ∀ p, b.status p ≠ .exited ↔ a.status p ≠ .exited :=
    fun p => not_congr (h4 p fun h => h)
  refine ⟨fun p hp => ?_, fun p m hm => ?_, h.unique⟩
  · rw [h2, h3]
    exact h.record p ((hlive p).mp hp)
  · rw [h1, hlive]
    exact h.locked p m hm

theorem LockInv.freed_eq (h : LockInv a held) (hp : a.status p ≠ .exited) (m : MutexRef) :
    freed (a.lock p) a.mutexStatus m = if m ∈ held p then .unlocked else a.mutexStatus m :=
  if_congr ((h.record p hp).mem m) rfl rfl

theorem LockInv.dies (h : LockInv a held) (hp : a.status p ≠ .exited) (hd : Dies p a b) :
    LockInv b (Function.update held p ∅) := by
  have hne : ∀ {r m}, m ∈ Function.update held p ∅ r → r ≠ p ∧ m ∈ held r := by
    intro r m hm
    by_cases hr : r = p
    · subst hr
      simp at hm
    · exact ⟨hr, by simpa [hr] using hm⟩
  refine ⟨fun r hr => ?_, fun r m hm => ?_, fun r r' m hm hm' => h.unique r r' m (hne hm).2
    (hne hm').2⟩
  · have hrp : r ≠ p := fun e => hr (e ▸ hd.gone)
    rw [hd.lock, hd.lockNum, Function.update_of_ne hrp]
    exact h.record r fun e => hr ((hd.others r hrp).mpr e)
  · obtain ⟨hrp, hm⟩ := hne hm
    obtain ⟨hl, hlive⟩ := h.locked r m hm
    have hnot : m ∉ held p := fun hmp => hrp (h.unique r p m hm hmp)
    rw [hd.mutexStatus, h.freed_eq hp, if_neg hnot]
    exact ⟨hl, fun e => hlive ((hd.others r hrp).mp e)⟩

theorem LockInv.update_of_exited (h : LockInv a held) (hp : a.status p = .exited) :
    Function.update held p ∅ = held := by
  refine Function.update_eq_self_iff.mpr (Finset.eq_empty_of_forall_notMem fun m hm => ?_).symm
  exact (h.locked p m hm).2 hp

theorem LockInv.acquired (h : LockInv a held) (hp : a.status p ≠ .exited)
    (hm : a.mutexStatus m = .unlocked)
    (hc : (held p).card < lockMaxNum) (hst : b.status = a.status)
    (hms : b.mutexStatus = Function.update a.mutexStatus m .locked)
    (hrec : ∀ i, (List.range lockMaxNum).find? (fun i => (a.lock p i).isNone) = some i →
      b.lock = Function.update a.lock p (Function.update (a.lock p) i (some m)) ∧
        b.lockNum = Function.update a.lockNum p (word (a.lockNum p + 1))) :
    LockInv b (Function.update held p (insert m (held p))) := by
  have hfree : ∀ r, m ∉ held r := fun r hr => by simp [(h.locked r m hr).1] at hm
  obtain ⟨i, hi, hfind, hnone⟩ := (h.record p hp).exists_free hc
  obtain ⟨hlock, hnum⟩ := hrec i hfind
  have hne : ∀ {r m'}, m' ∈ Function.update held p (insert m (held p)) r → (r = p ∧ m' = m) ∨
      m' ∈ held r := by
    intro r m' hm'
    by_cases hr : r = p
    · subst hr
      exact (Finset.mem_insert.mp (by simpa using hm')).imp_left fun e => ⟨rfl, e⟩
    · exact .inr (by simpa [hr] using hm')
  refine ⟨fun r hr => ?_, fun r m' hm' => ?_, fun r r' m' hm' hm'' => ?_⟩
  · rw [hst] at hr
    rw [hlock, hnum]
    by_cases hrp : r = p
    · subst hrp
      simpa using (h.record r hr).record hc hi hnone (hfree r)
    · simpa [hrp] using h.record r hr
  · rw [hms, hst]
    rcases hne hm' with ⟨rfl, rfl⟩ | hm'
    · exact ⟨by simp, hp⟩
    · have hmm : m' ≠ m := fun e => hfree r (e ▸ hm')
      exact ⟨by simpa [hmm] using (h.locked r m' hm').1, (h.locked r m' hm').2⟩
  · rcases hne hm' with ⟨rfl, rfl⟩ | h1 <;> rcases hne hm'' with ⟨rfl, e⟩ | h2
    · rfl
    · exact absurd h2 (hfree r')
    · exact absurd (e ▸ h1) (hfree r)
    · exact h.unique r r' m' h1 h2

end Preserved

section Steps
variable {held : Held}

theorem Sim.status_eq (h : Sim s a) : s.status = a.status := by
  obtain ⟨L, -, rfl⟩ := h
  rfl

theorem acquire_returns (hs : Sim s a) (hs' : Sim s' b) (h : LockInv a held)
    (hacq : acquiring s op = some m)
    (hm : s.mutexStatus m = .unlocked) (hp : s.status s.currentRunning ≠ .exited)
    (hc : (held s.currentRunning).card < lockMaxNum) (hrun : step op s = .ok s') :
    LockInv b (Function.update held s.currentRunning (insert m (held s.currentRunning))) := by
  obtain ⟨L, -, rfl⟩ := hs
  obtain ⟨L', -, rfl⟩ := hs'
  obtain ⟨k, hrun⟩ := step_acquiring hacq hrun
  rw [doMutexLockAcquire, if_neg (by simp [hm])] at hrun
  cases hrun
  refine h.acquired hp hm hc ?_ ?_ fun i hi => ?_
  · simp only [recordLock, Tasks.abs]
    split <;> rfl
  · simp only [recordLock, Tasks.abs]
    split <;> rfl
  · have hi : (List.range lockMaxNum).find? (fun i => (s.lock s.currentRunning i).isNone) = some
      i := hi
    simp only [recordLock, Tasks.abs, hi]
    exact ⟨trivial, trivial⟩

theorem acquire_blocks (hs : SimS s a) (hs' : Sim s' b) (hT : Tidy a) (h : LockInv a held)
    (hacq : acquiring s op = some m) (hm : s.mutexStatus m = .locked) (hrun : step op s = .ok s') :
    LockInv b held := by
  obtain ⟨⟨L, hL, rfl⟩, -⟩ := hs
  obtain ⟨k, hrun⟩ := step_acquiring hacq hrun
  rw [doMutexLockAcquire, if_pos hm] at hrun
  obtain ⟨b', hpath, hsim⟩ := (doBlock_runs (s := { s with kernelContext := k })
    (A := fun _ x => Switch x ∨ x = .block (.mutex m)) (fun _ _ h => .inl h) _ hL hT
      (.inr rfl)).of_ok hrun
  rw [hs'.unique hsim.1]
  refine h.kept (keeps_path hT ?_ hpath)
  rintro a x (hx | rfl)
  · exact hx.keeps
  · trivial

theorem spawn_keeps {t : TaskInfo} (hs : Sim s a) (hs' : Sim s' b) (h : LockInv a held)
    (hrun : step (.spawn t) s = .ok s') : LockInv b held := by
  obtain ⟨L, -, rfl⟩ := hs
  obtain ⟨L', -, rfl⟩ := hs'
  rw [step] at hrun
  cases hctx : s.kernelContext s.currentRunning with
  | acquire m => simp [hctx] at hrun
  | user =>
    simp only [hctx, exec, doSpawn] at hrun
    cases hfree : freeSlot { s.toTasks with lastPid := word (s.lastPid + 1) } with
    | none =>
      simp only [hfree] at hrun
      cases hrun
      exact ⟨h.record, h.locked, h.unique⟩
    | some i =>
      have hex : s.status (.task i) = .exited := by simpa using List.find?_some hfree
      simp only [hfree] at hrun
      obtain ⟨l, -, hrun⟩ := exists_of_bind_ok hrun
      cases hrun
      have hempty : held (.task i) = ∅ :=
        Finset.eq_empty_of_forall_notMem fun m hm => (h.locked _ m hm).2 hex
      refine ⟨fun p hp => ?_, fun p m hm => ⟨(h.locked p m hm).1, ?_⟩, h.unique⟩
      · by_cases hpi : p = .task i
        · subst hpi
          simpa [Tasks.abs, hempty] using RecordOk.empty
        · simpa [Tasks.abs, hpi] using h.record p (by simpa [Tasks.abs, hpi] using hp)
      · by_cases hpi : p = .task i
        · subst hpi
          simp [hempty] at hm
        · simpa [Tasks.abs, hpi] using (h.locked p m hm).2

theorem kill_keeps {n : Nat} (hs : Sim s a) (hs' : Sim s' b) (hT : Tidy a) (h : LockInv a held)
    (hk : ∀ i, slotOfPid n s.toTasks = some i → Removable a (.task i))
    (hw : ∀ p, dying s (.kill n) = some p → ∀ m, Recorded (s.lock p) m → ∀ r ∈ s.members (.mutex m),
    r = p)
    (hctx : acquiring s (.kill n) = none) (hrun : step (.kill n) s = .ok s') :
    LockInv b (heldAfter s (.kill n) held) := by
  simp only [heldAfter, hctx]
  cases hi : slotOfPid n s.toTasks with
  | none =>
    obtain ⟨L, hL, rfl⟩ := hs
    rw [step] at hrun
    cases hk : s.kernelContext s.currentRunning with
    | acquire m => simp [hk] at hrun
    | user =>
      simp only [hk, exec, doKill, hi] at hrun
      cases hrun
      rw [hs'.unique ⟨L, hL, rfl⟩]
      exact h
  | some i =>
    by_cases hex : s.status (.task i) = .exited
    · have hupd : Function.update held (.task i) ∅ = held := h.update_of_exited (hs.status_eq ▸ hex)
      obtain ⟨L, hL, rfl⟩ := hs
      rw [step] at hrun
      cases hk : s.kernelContext s.currentRunning with
      | acquire m => simp [hk] at hrun
      | user =>
        simp only [hk, exec, doKill, hi, killPcb, hex, ne_eq, not_true_eq_false, if_false, bind,
          Except.bind]
          at hrun
        simp only [hupd]
        split at hrun
        · obtain ⟨b', hpath, hsim⟩ :=
            (doScheduler_runs (A := fun _ => Switch) (fun _ _ h => h) .user hL
            hT).of_ok hrun
          rw [hs'.unique hsim.1]
          exact h.kept (keeps_path hT (fun _ _ h => h.keeps) hpath)
        · cases hrun
          rw [hs'.unique ⟨L, hL, rfl⟩]
          exact h
    · have hdy : dying s (.kill n) = some (.task i) := by simp [dying, hi, hex]
      obtain ⟨b', hsim, hdies⟩ := kill_dies hs hT (hk i hi) hi hex (hw _ hdy) hrun
      rw [hs'.unique hsim]
      exact h.dies (hs.status_eq ▸ hex) hdies

def Ordinary (s : Kernel) (op : Op) : Prop :=
  acquiring s op = none ∧ match op with
  | .spawn _ | .exit | .kill _ | .mutexInit _ | .release _ | .wait _ _ => False
  | _ => True

theorem May.keeps (ho : Ordinary s op) (hx : May s a op b x) : Keeps (fun _ => False) b x := by
  rcases hx with hx | hx
  · exact hx.keeps
  obtain ⟨hacq, ho⟩ := ho
  cases op with
  | schedule => exact hx.elim
  | tick recv =>
    obtain ⟨-, p, rfl⟩ := hx
    trivial
  | resume =>
    obtain ⟨m, hctx, -⟩ := hx
    simp [acquiring, hctx] at hacq
  | waitpid n =>
    obtain ⟨i, -, -, -, rfl⟩ := hx
    trivial
  | sleep t =>
    subst hx
    trivial
  | block q =>
    obtain ⟨-, rfl⟩ := hx
    trivial
  | unblockOne q =>
    obtain ⟨p, rfl⟩ := hx
    trivial
  | unblockAll q =>
    obtain ⟨p, rfl⟩ := hx
    trivial
  | acquire m => cases hacq
  | semaphoreInit n val =>
    obtain ⟨-, rfl⟩ := hx
    trivial
  | up n =>
    obtain ⟨p, rfl⟩ := hx
    trivial
  | down n =>
    subst hx
    trivial
  | conditionInit c =>
    obtain ⟨-, rfl⟩ := hx
    trivial
  | signal c =>
    obtain ⟨p, rfl⟩ := hx
    trivial
  | broadcast c =>
    obtain ⟨p, rfl⟩ := hx
    trivial
  | barrierInit b goal =>
    obtain ⟨-, rfl⟩ := hx
    trivial
  | barrierWait b =>
    rcases hx with rfl | ⟨p, rfl⟩
    · trivial
    · trivial
  | spawn t => exact ho.elim
  | exit => exact ho.elim
  | kill n => exact ho.elim
  | mutexInit m => exact ho.elim
  | release m => exact ho.elim
  | wait m c => exact ho.elim

theorem ordinary_keeps (hs : SimS s a) (hs' : Sim s' b) (hT : Tidy a) (h : LockInv a held)
    (hcov : Covered s a op) (ho : Ordinary s op) (hrun : step op s = .ok s') : LockInv b held := by
  rcases step_runs hs hT hcov with hd | hr
  · rw [hrun] at hd
    cases hd
  · obtain ⟨b', hpath, hsim⟩ := Simulates.of_ok hr hrun
    rw [hs'.unique hsim.1]
    exact h.kept (keeps_path hT (fun _ _ hx => hx.keeps ho) hpath)

theorem mutexInit_keeps (hs : Sim s a) (hs' : Sim s' b) (h : LockInv a held)
    (hm : s.mutexStatus m = .unlocked) (hrun : step (.mutexInit m) s = .ok s') :
    LockInv b held := by
  obtain ⟨L, -, rfl⟩ := hs
  obtain ⟨L', -, rfl⟩ := hs'
  rw [step] at hrun
  cases hk : s.kernelContext s.currentRunning with
  | acquire m => simp [hk] at hrun
  | user =>
    simp only [hk, exec, doMutexLockInit, ← hm, Function.update_eq_self] at hrun
    cases hrun
    exact ⟨h.record, h.locked, h.unique⟩

end Steps

theorem lockStep_ok {c c' : LockConfig} (h : lockStep c op = .ok c') :
    step op c.kernel = .ok c'.kernel ∧ c'.held = heldAfter c.kernel op c.held := by
  obtain ⟨s, hs, hc⟩ := exists_of_bind_ok h
  cases hc
  exact ⟨hs, rfl⟩

theorem Unreleased.killsFind {c : LockConfig} (h : Unreleased c op) : KillsFind c.kernel op := by
  obtain ⟨⟨-, hcall⟩, -, -, hkill, -⟩ := h
  refine ⟨?_, hkill⟩
  cases op with
  | block q => exact hcall
  | unblockOne q => exact hcall
  | unblockAll q => exact hcall
  | _ => trivial

theorem heldAfter_acquiring {held : Held} (hacq : acquiring s op = some m) :
    heldAfter s op held = if s.mutexStatus m = .unlocked then
      Function.update held s.currentRunning (insert m (held s.currentRunning)) else held := by
  unfold heldAfter
  rw [hacq]

theorem lockInv_step {c c' : LockConfig} (hs : SimS c.kernel a) (hs' : SimS c'.kernel b)
    (hT : Tidy a)
    (hz : Sleepers (fun _ => False) a) (h : LockInv a c.held) (hop : Unreleased c op)
    (hstep : lockStep c op = .ok c') : LockInv b c'.held := by
  obtain ⟨hrun, hheld⟩ := lockStep_ok hstep
  have hcov : Covered c.kernel a op := hop.killsFind.covered hs.1 hz
  obtain ⟨⟨hroom, hcall⟩, hrel, hwait, hkill, hnowait⟩ := hop
  rw [hheld]
  cases hacq : acquiring c.kernel op with
  | some m =>
    rw [heldAfter_acquiring hacq]
    cases hm : c.kernel.mutexStatus m with
    | unlocked =>
      have hlive : c.kernel.status c.kernel.currentRunning ≠ .exited := by
        obtain ⟨⟨L, -, rfl⟩, hS⟩ := hs
        exact hS.not_exited
      exact acquire_returns hs.1 hs'.1 h hacq hm hlive (hroom (by simp [hacq])) hrun
    | locked => exact acquire_blocks hs hs'.1 hT h hacq hm hrun
  | none =>
    cases op with
    | exit =>
      obtain ⟨b', hsim, -, hdies⟩ := exit_dies hs hT (hnowait _ rfl) hrun
      have hlive : a.status c.kernel.currentRunning ≠ .exited := by
        obtain ⟨⟨L, -, rfl⟩, hS⟩ := hs
        exact hS.not_exited
      rw [hs'.1.unique hsim.1]
      exact h.dies hlive hdies
    | kill n => exact kill_keeps hs.1 hs'.1 hT h hcov hnowait hacq hrun
    | spawn t => exact spawn_keeps hs.1 hs'.1 h hrun
    | mutexInit m => exact mutexInit_keeps hs.1 hs'.1 h hcall hrun
    | release m => exact absurd rfl (hrel m)
    | wait m n => exact absurd rfl (hwait m n)
    | acquire m => cases hacq
    | _ =>
      simp only [heldAfter, hacq]
      exact ordinary_keeps hs hs'.1 hT h hcov ⟨hacq, trivial⟩ hrun

theorem lockReachable_inv {c : LockConfig} (h : LockReachable Unreleased c) :
    ∃ a, SimS c.kernel a ∧ Tidy a ∧ Sleepers (fun _ => False) a ∧ LockInv a c.held := by
  obtain ⟨e, s₀, hinit, hrun⟩ := h
  induction hrun with
  | refl =>
    obtain ⟨hs, hT⟩ := initPcb_sim hinit
    exact ⟨_, hs, hT, sleepers_initAbs, fun p _ => RecordOk.empty, by simp, by simp⟩
  | tail _ hstep ih =>
    obtain ⟨a, hs, hT, hz, h⟩ := ih
    obtain ⟨op, hop, hrun⟩ := hstep
    obtain ⟨b, hs', hT', hz'⟩ := killsFind_step hs hT hz hop.killsFind (lockStep_ok hrun).1
    exact ⟨b, hs', hT', hz', lockInv_step hs hs' hT hz h hop hrun⟩

/-- In every run without releases in which nobody waits for a mutex of a dying process, the records
of live processes are exact, and the end of a process unlocks what it held and nothing else. -/
theorem lock_records_exact {c : LockConfig} (h : LockReachable Unreleased c) :
    (∀ p, c.kernel.status p ≠ .exited → RecordOk (c.kernel.lock p) (c.kernel.lockNum p) (c.held p))
    ∧
    ∀ op c' p, Unreleased c op → lockStep c op = .ok c' → dying c.kernel op = some p →
      ∀ m, (m ∈ c.held p → c.kernel.mutexStatus m = .locked ∧ ∀ r, r ≠ p → m ∉ c.held r) ∧
        c'.kernel.mutexStatus m = if m ∈ c.held p then .unlocked else c.kernel.mutexStatus m := by
  obtain ⟨a, hs, hT, hz, hinv⟩ := lockReachable_inv h
  refine ⟨fun p hp => ?_, fun op c' p hop hstep hdy m => ⟨fun hm => ?_, ?_⟩⟩
  · obtain ⟨⟨L, -, rfl⟩, -⟩ := hs
    exact hinv.record p hp
  · refine ⟨?_, fun r hr hmr => hr (hinv.unique r p m hmr hm)⟩
    rw [hs.1.mutexStatus]
    exact (hinv.locked p m hm).1
  · obtain ⟨hrun, -⟩ := lockStep_ok hstep
    have hcov := hop.killsFind.covered hs.1 hz
    obtain ⟨-, -, -, -, hnowait⟩ := hop
    have hdies : ∃ b, Sim c'.kernel b ∧ Dies p a b ∧ a.status p ≠ .exited := by
      cases op with
      | exit =>
        cases hdy
        obtain ⟨b, hsim, -, hdies⟩ := exit_dies hs hT (hnowait _ rfl) hrun
        refine ⟨b, hsim.1, hdies, ?_⟩
        obtain ⟨⟨L, -, rfl⟩, hS⟩ := hs
        exact hS.not_exited
      | kill n =>
        have hw := hnowait p hdy
        simp only [dying, Option.bind_eq_some_iff] at hdy
        obtain ⟨i, hi, hdy⟩ := hdy
        split at hdy
        · cases hdy
        · next hlive =>
          cases hdy
          obtain ⟨b, hsim, hdies⟩ := kill_dies hs.1 hT (hcov i hi) hi hlive hw hrun
          exact ⟨b, hsim, hdies, hs.1.status_eq ▸ hlive⟩
      | _ => cases hdy
    obtain ⟨b, hsim, hdies, hlive⟩ := hdies
    rw [hsim.mutexStatus, hdies.mutexStatus, hinv.freed_eq hlive, hs.1.mutexStatus]

def tested (c : LockConfig) : Op → Bool
  | .schedule | .tick _ | .spawn _ => true
  | .acquire _ => (c.held c.kernel.currentRunning).card < lockMaxNum
  | .release m => m ∈ c.held c.kernel.currentRunning
  | _ => false

def testedStep (c : LockConfig) (op : Op) : Except Fault LockConfig :=
  if tested c op then lockStep c op else .error .disabled

theorem testedStep_ok {c c' : LockConfig} (h : testedStep c op = .ok c') :
    lockStep c op = .ok c' ∧ LockCall c op ∧ dying c.kernel op = none ∧ (∀ m n, op ≠ .wait m n) ∧
      ∀ n, op ≠ .kill n := by
  rw [testedStep] at h
  split at h
  · next htest =>
    refine ⟨h, ?_⟩
    cases op <;> simp_all [tested, LockCall, acquiring, dying]
  · cases h

theorem lockReachable_tested {P : LockConfig → Op → Prop} {ops : List Op} {s₀ : Kernel}
    {c : LockConfig}
    (hinit : initPcb 1 = .ok s₀) (hrun : ops.foldlM testedStep ⟨s₀, fun _ => ∅⟩ = .ok c)
    (hP : ∀ c c', ∀ op ∈ ops, testedStep c op = .ok c' → P c op) : LockReachable P c := by
  refine ⟨1, s₀, hinit, ReflTransGen.mono ?_ _ _ (path_of_foldlM hrun)⟩
  exact fun c c' ⟨op, hop, h⟩ => ⟨op, hP c c' op hop h, (testedStep_ok h).1⟩

theorem lock_records_exact_at_exit :
    ∃ c c', LockReachable Unreleased c ∧ c.held shell = {3, 4} ∧ Unreleased c .exit ∧
      lockStep c .exit = .ok c' ∧ RecordOk (c.kernel.lock shell) (c.kernel.lockNum shell) {3, 4} ∧
      c'.kernel.mutexStatus 3 = .unlocked ∧ c'.kernel.mutexStatus 4 = .unlocked := by
  let ops : List Op := [.schedule, .spawn ⟨1⟩, .acquire 3, .acquire 4]
  obtain ⟨s₀, hinit, hops⟩ := exists_of_endsIn (r := initPcb 1)
    (t := fun s₀ => endsIn (fun c : LockConfig => c.held shell = {3, 4} ∧
      c.kernel.currentRunning = shell ∧
      c.kernel.status shell = .running ∧ c.kernel.members (.mutex 3) = [] ∧
        c.kernel.members (.mutex 4) = [] ∧
      endsIn (fun _ => true) (lockStep c .exit) = true) (ops.foldlM testedStep ⟨s₀, fun _ => ∅⟩))
        (by decide +kernel)
  obtain ⟨c, hrun, htest⟩ := exists_of_endsIn hops
  obtain ⟨hh, hcur, hst, hw3, hw4, hexit⟩ := of_decide_eq_true htest
  obtain ⟨c', hc', -⟩ := exists_of_endsIn hexit
  have hreach : LockReachable Unreleased c := by
    refine lockReachable_tested hinit hrun fun c c' op hop h => ?_
    obtain ⟨-, h1, h2, h3, h4⟩ := testedStep_ok h
    refine ⟨h1, ?_, h3, fun n e => absurd e (h4 n), by simp [h2]⟩
    rintro m rfl
    simp [ops] at hop
  have hrec := (lock_records_exact hreach).1 shell (by simp [hst])
  rw [hh] at hrec
  have hun : Unreleased c .exit := by
    refine ⟨⟨by simp [acquiring], trivial⟩, by simp, by simp, by simp, fun p hp m hm r hr => ?_⟩
    have hp : shell = p := by simpa [dying, hcur] using hp
    subst hp
    have hm : m = 3 ∨ m = 4 := by simpa using (hrec.mem m).mp hm
    rcases hm with rfl | rfl
    · simp [hw3] at hr
    · simp [hw4] at hr
  have hend := (lock_records_exact hreach).2 .exit c' shell hun hc' (by simp [dying, hcur])
  exact ⟨c, c', hreach, hh, hun, hc',
    hrec, by simpa [hh] using (hend 3).2, by simpa [hh] using (hend 4).2⟩

theorem lock_record_stale :
    ∃ c c', LockReachable LockCall c ∧ c.kernel.status shell = .running ∧
      Recorded (c.kernel.lock shell) 0 ∧ 0 ∉ c.held shell ∧ 0 ∈ c.held (.task ⟨0, by decide⟩) ∧
      c.kernel.mutexStatus 0 = .locked ∧ lockStep c .exit = .ok c' ∧
      c'.kernel.mutexStatus 0 = .unlocked ∧
      0 ∈ c'.held (.task ⟨0, by decide⟩) := by
  let i : Fin numMaxTask := ⟨0, by decide⟩
  let ops : List Op :=
    [.schedule, .spawn ⟨1⟩, .acquire 0, .release 0, .tick false, .acquire 0, .tick false,
      .tick false]
  obtain ⟨s₀, hinit, hops⟩ := exists_of_endsIn (r := initPcb 1)
    (t := fun s₀ => endsIn (fun c : LockConfig => c.kernel.status shell = .running ∧
      Recorded (c.kernel.lock shell) 0 ∧ 0 ∉ c.held shell ∧ 0 ∈ c.held (.task i) ∧
      c.kernel.mutexStatus 0 = .locked ∧ endsIn (fun c' : LockConfig => c'.kernel.mutexStatus
        0 = .unlocked ∧
        0 ∈ c'.held (.task i)) (lockStep c .exit) = true) (ops.foldlM testedStep ⟨s₀, fun _ => ∅⟩))
    (by decide +kernel)
  obtain ⟨c, hrun, htest⟩ := exists_of_endsIn hops
  obtain ⟨h1, h2, h3, h4, h5, hexit⟩ := of_decide_eq_true htest
  obtain ⟨c', hc', htest'⟩ := exists_of_endsIn hexit
  obtain ⟨h6, h7⟩ := of_decide_eq_true htest'
  refine ⟨c, c', ?_, h1, h2, h3, h4, h5, hc', h6, h7⟩
  exact lockReachable_tested hinit hrun fun c c' op _ h => (testedStep_ok h).2.1

end Ucas.Sched

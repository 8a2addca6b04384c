import UcasOs.Sched.Kill
import UcasOs.Lib.Refinement

/-! The fields that scheduling, blocking and waking leave alone. -/

namespace Ucas.Sched
open Ucas.Lib

variable {s s' t : Kernel} {q : QueueRef} {p : PcbRef}

structure Core where
  semValue : Nat → Int
  maxNum : Nat → Int
  notArriveNum : Nat → Int
  kernelContext : PcbRef → Resume
  currentRunning : PcbRef
  kernelStackTop : PcbRef → Nat
  userStackTop : PcbRef → Nat
  stackTop : Nat

def Tasks.core (t : Tasks) : Core :=
  ⟨t.semValue, t.maxNum, t.notArriveNum, t.kernelContext, t.currentRunning, t.kernelStackTop,
    t.userStackTop, t.stackTop⟩

def SameCore (s s' : Kernel) : Prop := s'.core = s.core

def Frames (f : Kernel → Except Fault Kernel) : Prop := ∀ s s', f s = .ok s' → SameCore s s'

theorem SameCore.trans {u : Kernel} (h : SameCore s t) (h' : SameCore t u) : SameCore s u :=
  Eq.trans h' h

theorem Frames.bind {f g : Kernel → Except Fault Kernel} (hf : Frames f) (hg : Frames g) :
    Frames fun s => f s >>= g := by
  intro s s' h
  obtain ⟨t, ht, hs'⟩ := exists_of_bind_ok h
  exact (hf s t ht).trans (hg t s' hs')

theorem sameCore_of_queues {r : Except Fault Links} (h : (do return { s with queues := ← r }) = .ok
    s') :
    SameCore s s' := by
  obtain ⟨l, -, hs'⟩ := exists_of_bind_ok h
  cases hs'
  exact rfl

theorem frames_foldlM {β : Type} {f : Kernel → β → Except Fault Kernel} (l : List β)
    (hf : ∀ x, Frames fun s => f s x) : Frames fun s => l.foldlM f s := by
  induction l with
  | nil =>
    intro s s' h
    cases h
    exact rfl
  | cons x l ih =>
    intro s s' h
    obtain ⟨t, ht, hs'⟩ := exists_of_bind_ok (List.foldlM_cons.symm.trans h)
    exact (hf x s t ht).trans (ih t s' hs')

theorem frames_makeReady (p : PcbRef) : Frames (makeReady p) := by
  intro s s' h
  obtain ⟨l, -, hs'⟩ := exists_of_bind_ok h
  cases hs'
  exact rfl

theorem sameCore_of_makeReady {r : Except Fault Links}
    (h : (do makeReady p { s with queues := ← r }) = .ok s') : SameCore s s' := by
  obtain ⟨l, -, hs'⟩ := exists_of_bind_ok h
  have hqueues : SameCore s { s with queues := l } := rfl
  exact hqueues.trans (frames_makeReady p _ _ hs')

theorem frames_checkSleeping : Frames checkSleeping := by
  intro s s' h
  obtain ⟨o, -, hs'⟩ := exists_of_bind_ok h
  cases o with
  | none =>
    cases hs'
    exact rfl
  | some p => exact sameCore_of_makeReady hs'

theorem frames_awaitReady (n : Nat) : Frames (awaitReady n) := by
  induction n with
  | zero =>
    intro s s' h
    rw [awaitReady] at h
    split at h
    · cases h
    · cases h
      exact rfl
  | succ n ih =>
    intro s s' h
    rw [awaitReady] at h
    split at h
    · exact frames_checkSleeping.bind ih s s' h
    · cases h
      exact rfl

theorem frames_yieldCurrent : Frames yieldCurrent := by
  intro s s' h
  simp only [yieldCurrent] at h
  have hcursor : SameCore s { s with
      cursorX := Function.update s.cursorX s.currentRunning s.screenCursorX
      cursorY := Function.update s.cursorY s.currentRunning s.screenCursorY } := rfl
  split at h
  · split at h
    · exact hcursor.trans (frames_makeReady _ _ _ h)
    · cases h
      exact rfl
  · cases h
    exact hcursor

theorem frames_blockCurrent (q : QueueRef) : Frames (blockCurrent q) := by
  intro s s' h
  obtain ⟨l, -, h⟩ := exists_of_bind_ok h
  cases h
  exact rfl

theorem frames_sleepCurrent (n : Nat) : Frames (sleepCurrent n) := by
  intro s s' h
  obtain ⟨l, -, h⟩ := exists_of_bind_ok h
  cases h
  exact rfl

theorem frames_whenRunning {f : Kernel → Except Fault Kernel} (hf : Frames f) :
    Frames (whenRunning f) := by
  intro s s' h
  rw [whenRunning] at h
  split at h
  · exact hf s s' h
  · cases h
    exact rfl

theorem frames_doUnblockOne (q : QueueRef) : Frames (doUnblockOne q) := by
  intro s s' h
  rw [doUnblockOne] at h
  split at h
  · cases h
    exact rfl
  · obtain ⟨p, -, h⟩ := exists_of_bind_ok h
    exact sameCore_of_makeReady h

theorem frames_wakeHead (q : QueueRef) : Frames (wakeHead q) := by
  intro s s' h
  obtain ⟨r, -, h⟩ := exists_of_bind_ok h
  have hqueues : SameCore s { s with queues := r.2 } := rfl
  exact hqueues.trans (frames_makeReady _ _ _ h)

theorem frames_drain {f : Kernel → Except Fault Kernel} (hf : Frames f) (n : Nat) :
    Frames (drain q f n) := by
  induction n with
  | zero =>
    intro s s' h
    rw [drain] at h
    split at h
    · cases h
      exact rfl
    · cases h
  | succ n ih =>
    intro s s' h
    rw [drain] at h
    split at h
    · cases h
      exact rfl
    · exact hf.bind ih s s' h

theorem sameCore_recordLock (p : PcbRef) (m : MutexRef) : SameCore s (recordLock p m s) := by
  rw [recordLock]
  split
  · exact rfl
  · exact rfl

theorem sameCore_eraseWaiters (m : MutexRef) (l : List PcbRef) :
    SameCore s (l.foldl (eraseWaiter m) s) := by
  induction l generalizing s with
  | nil => exact rfl
  | cons p l ih =>
    have h : SameCore s (eraseWaiter m s p) := rfl
    exact h.trans ih

theorem frames_release (m : MutexRef) : Frames (doMutexLockRelease m) := by
  intro s s' h
  rw [doMutexLockRelease] at h
  split at h
  · obtain ⟨l, -, h⟩ := exists_of_bind_ok h
    let s₁ : Kernel := { s with mutexStatus := Function.update s.mutexStatus m .unlocked }
    have hset : SameCore s s₁ := rfl
    exact (hset.trans (sameCore_eraseWaiters m l)).trans (frames_drain (frames_doUnblockOne _) fuel
      _ _ h)
  · cases h
    exact rfl

theorem frames_releaseAll (p : PcbRef) : Frames (releaseAll p) := by
  refine frames_foldlM _ fun i s s' h => ?_
  simp only [releaseRecord] at h
  split at h
  · cases h
    exact rfl
  · exact frames_release _ _ _ h

theorem frames_leaveLocks (p : PcbRef) : Frames (leaveLocks p) := by
  refine frames_foldlM _ fun k s s' h => ?_
  obtain ⟨found, -, h⟩ := exists_of_bind_ok h
  cases found with
  | true => exact sameCore_of_queues h
  | false =>
    cases h
    exact rfl

theorem frames_killPcb (p : PcbRef) : Frames (killPcb p) := by
  have hleave : Frames (leaveQueue p) := by
    intro s s' h
    rw [leaveQueue] at h
    split at h
    · exact sameCore_of_queues h
    · exact sameCore_of_queues h
    · exact frames_leaveLocks p s s' h
    · exact sameCore_of_queues h
    · cases h
      exact rfl
    · cases h
      exact rfl
  intro s s' h
  rw [killPcb] at h
  split at h
  · obtain ⟨t, ht, h⟩ := exists_of_bind_ok h
    have hdie : SameCore t { t with status := Function.update t.status p .exited } := rfl
    exact ((hleave _ _ ht).trans hdie).trans
      ((frames_releaseAll p).bind (frames_drain (frames_wakeHead _) fuel) _ _ h)
  · cases h
    exact rfl

def Undisturbed (s s' : Kernel) : Prop :=
  s'.core = { s.core with currentRunning := s'.currentRunning }

theorem Undisturbed.trans {u : Kernel} (h : Undisturbed s t) (h' : Undisturbed t u) :
    Undisturbed s u := by
  rw [Undisturbed] at *
  rw [h', h]

theorem SameCore.undisturbed (h : SameCore s s') : Undisturbed s s' := by
  rw [SameCore] at h
  rw [Undisturbed, ← h]
  rfl

theorem doScheduler_undisturbed {k : Resume} (h : doScheduler k s = .ok s') :
    Undisturbed { s with kernelContext := Function.update s.kernelContext s.currentRunning k }
    s' := by
  obtain ⟨t, ht, h⟩ := exists_of_bind_ok h
  obtain ⟨u, hu, h⟩ := exists_of_bind_ok h
  obtain ⟨v, hv, h⟩ := exists_of_bind_ok h
  refine (((frames_yieldCurrent _ _ ht).trans (frames_checkSleeping _ _ hu)).trans
    (frames_awaitReady _ _ _ hv)).undisturbed.trans ?_
  obtain ⟨r, -, h⟩ := exists_of_bind_ok h
  obtain ⟨l, -, h⟩ := exists_of_bind_ok h
  cases h
  rfl

theorem SameCore.thenScheduler {k : Resume} (ht : SameCore s t) (h : doScheduler k t = .ok s') :
    Undisturbed { s with kernelContext := Function.update s.kernelContext s.currentRunning k }
    s' := by
  have hset : ∀ u : Kernel, ({ u with
      kernelContext := Function.update u.kernelContext u.currentRunning k } : Kernel).core =
      { u.core with kernelContext := Function.update u.core.kernelContext u.core.currentRunning k }
          :=
    fun _ => rfl
  have hs' := doScheduler_undisturbed h
  rw [Undisturbed, hset] at hs' ⊢
  rw [hs', ht]

theorem Frames.thenScheduler {f : Kernel → Except Fault Kernel} {k : Resume} (hf : Frames f)
    (h : f s >>= doScheduler k = .ok s') :
    Undisturbed { s with kernelContext := Function.update s.kernelContext s.currentRunning k }
    s' := by
  obtain ⟨t, ht, h⟩ := exists_of_bind_ok h
  exact (hf s t ht).thenScheduler h

theorem Undisturbed.of_user (hu : s.kernelContext s.currentRunning = .user)
    (h : Undisturbed
    { s with kernelContext := Function.update s.kernelContext s.currentRunning .user } s') :
    Undisturbed s s' := by
  rwa [← hu, Function.update_eq_self] at h

end Ucas.Sched

import UcasOs.Sched.Locking
import UcasOs.Lib.Simulation

/-! Creation and end of processes, `init_pcb`, and the kernel as a transition system: one step is
one system call or timer interrupt up to the next return to user mode or context switch. -/

namespace Ucas.Sched
open Ucas.Lib

structure TaskInfo where
  entryPoint : Nat
  deriving DecidableEq, Repr

def freeSlot (s : Tasks) : Option (Fin numMaxTask) :=
  (List.finRange numMaxTask).find? fun i => s.status (.task i) = .exited

/-- `while (pcb[i].pid != n)` of `do_waitpid` and `do_kill`. -/
def slotOfPid (n : Nat) (s : Tasks) : Option (Fin numMaxTask) :=
  (List.finRange numMaxTask).find? fun i => s.pid (.task i) = n

def doSpawn (t : TaskInfo) (s : Kernel) : Except Fault Kernel := do
  let s : Kernel := { s with lastPid := word (s.lastPid + 1) }
  match freeSlot s.toTasks with
  | none => return s
  | some i =>
    let p := PcbRef.task i
    let s : Kernel := { s with
      queues := queueInit (.waiting p) s.queues
      lock := Function.update s.lock p fun _ => none
      kernelStackTop := Function.update s.kernelStackTop p s.stackTop
      userStackTop := Function.update s.userStackTop p (word (s.stackTop + stackSize))
      userStackTopVar := word (s.userStackTopVar + vmStackSize * 2)
      stackTop := word (s.stackTop + stackSize * 2)
      pid := Function.update s.pid p s.lastPid
      status := Function.update s.status p .created
      cursorX := Function.update s.cursorX p 0
      cursorY := Function.update s.cursorY p 0
      entryPoint := Function.update s.entryPoint p t.entryPoint
      kernelContext := Function.update s.kernelContext p .user
      priority := Function.update s.priority p initialPriority
      sleepingDeadline := Function.update s.sleepingDeadline p 0
      lockNum := Function.update s.lockNum p 0 }
    return { s with queues := ← queuePush .ready p s.queues }

/-- `if (p->lock[i] != 0) do_mutex_lock_release(p->lock[i])`. -/
def releaseRecord (p : PcbRef) (s : Kernel) (i : Nat) : Except Fault Kernel :=
  match s.lock p i with
  | none => .ok s
  | some m => doMutexLockRelease m s

def releaseAll (p : PcbRef) (s : Kernel) : Except Fault Kernel :=
  (List.range lockMaxNum).foldlM (releaseRecord p) s

def finishExit (p : PcbRef) (s : Kernel) : Except Fault Kernel := do
  let s ← drain (.waiting p) (wakeHead (.waiting p)) fuel s
  doScheduler .user { s with status := Function.update s.status p .exited }

def doExit (s : Kernel) : Except Fault Kernel := do
  finishExit s.currentRunning (← releaseAll s.currentRunning s)

def doWaitpid (n : Nat) (s : Kernel) : Except Fault Kernel :=
  match slotOfPid n s.toTasks with
  | none => .ok s
  | some i =>
    if s.status (.task i) ≠ .exited then do
      doScheduler .user (← blockCurrent (.waiting (.task i)) s)
    else .ok s

def leaveLock (p : PcbRef) (s : Kernel) (k : Nat) : Except Fault Kernel := do
  match ← checkInQueue (.mutex k) p s.queues with
  | true => return { s with queues := ← queueRemove (.mutex k) p s.queues }
  | false => return s

/-- `do_kill` takes a blocked process out of the queues of the mutexes in `Lock[]` only. -/
def leaveLocks (p : PcbRef) (s : Kernel) : Except Fault Kernel :=
  (List.range maxLockNumTotal).foldlM (leaveLock p) s

def leaveQueue (p : PcbRef) (s : Kernel) : Except Fault Kernel :=
  match s.status p with
  | .ready | .created => do return { s with queues := ← queueRemove .ready p s.queues }
  | .blocked => leaveLocks p s
  | .sleeping => do return { s with queues := ← queueRemove .sleeping p s.queues }
  | .running | .exited => .ok s

def killPcb (p : PcbRef) (s : Kernel) : Except Fault Kernel :=
  if s.status p ≠ .exited then do
    let s ← leaveQueue p s
    let s ← releaseAll p { s with status := Function.update s.status p .exited }
    clearWaitingQueue (.waiting p) s
  else .ok s

def doKill (n : Nat) (s : Kernel) : Except Fault Kernel :=
  match slotOfPid n s.toTasks with
  | none => .ok s
  | some i => do
    let s ← killPcb (.task i) s
    if s.pid s.currentRunning = n then doScheduler .user s else return s

def checkRecvBlockQueue (recv : Bool) (s : Kernel) : Except Fault Kernel :=
  if recv then doUnblockOne .recvBlock s else .ok s

def irqTimer (recv : Bool) (s : Kernel) : Except Fault Kernel := do
  doScheduler .user (← checkRecvBlockQueue recv { s with timeElapsed := word (s.timeElapsed + 15) })

inductive Op
  | schedule
  | tick (recv : Bool)
  | resume
  | spawn (t : TaskInfo)
  | exit
  | waitpid (n : Nat)
  | kill (n : Nat)
  | sleep (t : Nat)
  | block (q : QueueRef)
  | unblockOne (q : QueueRef)
  | unblockAll (q : QueueRef)
  | mutexInit (m : MutexRef)
  | acquire (m : MutexRef)
  | release (m : MutexRef)
  | semaphoreInit (x : Nat) (val : Int)
  | up (x : Nat)
  | down (x : Nat)
  | conditionInit (c : Nat)
  | wait (m : MutexRef) (c : Nat)
  | signal (c : Nat)
  | broadcast (c : Nat)
  | barrierInit (b : Nat) (goal : Int)
  | barrierWait (b : Nat)
  deriving DecidableEq, Repr

def exec (op : Op) (s : Kernel) : Except Fault Kernel :=
  match op with
  | .schedule => doScheduler .user s
  | .tick recv => irqTimer recv s
  | .resume => .error .disabled
  | .spawn t => doSpawn t s
  | .exit => doExit s
  | .waitpid n => doWaitpid n s
  | .kill n => doKill n s
  | .sleep t => doSleep t s
  | .block q => doBlock q .user s
  | .unblockOne q => doUnblockOne q s
  | .unblockAll q => doUnblockAll q s
  | .mutexInit m => .ok (doMutexLockInit m s)
  | .acquire m => doMutexLockAcquire m s
  | .release m => doMutexLockRelease m s
  | .semaphoreInit x val => .ok (doSemaphoreInit x val s)
  | .up x => doSemaphoreUp x s
  | .down x => doSemaphoreDown x s
  | .conditionInit c => .ok (doConditionInit c s)
  | .wait m c => doConditionWait m c s
  | .signal c => doConditionSignal c s
  | .broadcast c => doConditionBroadcast c s
  | .barrierInit b goal => .ok (doBarrierInit b goal s)
  | .barrierWait b => doBarrierWait b s

def step (op : Op) (s : Kernel) : Except Fault Kernel :=
  match s.kernelContext s.currentRunning with
  | .user => exec op s
  | .acquire m =>
    if op = .resume then
      doMutexLockAcquire m
        { s with kernelContext := Function.update s.kernelContext s.currentRunning .user }
    else .error .disabled

def shell : PcbRef := .task ⟨1, by decide⟩

def emptyLinks : Links := ⟨fun _ => none, fun _ => none, fun _ => ⟨none, none⟩⟩

/-- `init_pcb` on zeroed memory; `entryPoint` is the shell's. -/
def initPcb (entryPoint : Nat) : Except Fault Kernel := do
  let queues ← queuePush .ready shell emptyLinks
  return {
    pid := fun p => if p = shell then 1 else 0
    entryPoint := fun p => if p = shell then entryPoint else 0
    status := fun p => if p = shell ∨ p = .init then .created else .exited
    cursorX := fun _ => 0
    cursorY := fun _ => 0
    priority := fun p => if p = shell then initialPriority else 0
    lock := fun _ _ => none
    lockNum := fun _ => 0
    sleepingDeadline := fun _ => 0
    kernelStackTop := fun p => if p = shell then stackMin else 0
    userStackTop := fun p => if p = shell then stackMin + stackSize else 0
    kernelContext := fun _ => .user
    currentRunning := .init
    lastPid := 1
    stackTop := stackMin + stackSize * 2
    userStackTopVar := vmStackMin + vmStackSize
    timeElapsed := 0
    screenCursorX := 0
    screenCursorY := 0
    mutexStatus := fun _ => .unlocked
    semValue := fun _ => 0
    maxNum := fun _ => 0
    notArriveNum := fun _ => 0
    queues := queues }

def Steps (P : Kernel → Op → Prop) (s s' : Kernel) : Prop := ∃ op, P s op ∧ step op s = .ok s'

def Reachable (P : Kernel → Op → Prop) (s : Kernel) : Prop :=
  ∃ entryPoint s₀, entryPoint ≠ 0 ∧ initPcb entryPoint = .ok s₀ ∧ Relation.ReflTransGen (Steps P) s₀
    s

def execute (entryPoint : Nat) (ops : List Op) : Except Fault Kernel := do
  ops.foldlM (fun s op => step op s) (← initPcb entryPoint)

theorem reachable_execute {P : Kernel → Op → Prop} {entryPoint : Nat} {ops : List Op} {s : Kernel}
    (he : entryPoint ≠ 0) (hP : ∀ op ∈ ops, ∀ s, P s op) (h : execute entryPoint ops = .ok s) :
    Reachable P s := by
  rw [execute] at h
  cases hs : initPcb entryPoint with
  | error e => simp [hs, bind, Except.bind] at h
  | ok s₀ =>
    have hpath := path_of_foldlM (by simpa only [hs, bind, Except.bind] using h)
    refine ⟨entryPoint, s₀, he, hs, Relation.ReflTransGen.mono ?_ _ _ hpath⟩
    exact fun s _ ⟨op, hop, hrun⟩ => ⟨op, hP op hop s, hrun⟩

def endsIn {κ : Type} (test : κ → Bool) (r : Except Fault κ) : Bool :=
  match r with
  | .ok s => test s
  | .error _ => false

theorem exists_of_endsIn {κ : Type} {t : κ → Bool} {r : Except Fault κ} (h : endsIn t r = true) :
    ∃ s, r = .ok s ∧ t s = true := by
  cases r with
  | ok s => exact ⟨s, rfl, h⟩
  | error e => cases h

end Ucas.Sched

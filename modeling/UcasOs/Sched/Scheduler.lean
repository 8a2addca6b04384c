import UcasOs.Sched.State

/-! `sched.c` up to `do_unblock_all`. -/

namespace Ucas.Sched
open Ucas.Lib

def getTimer (s : Tasks) : Nat := s.timeElapsed / 5000

/-- `status = TASK_READY; queue_push(&ready_queue, p)`. -/
def makeReady (p : PcbRef) (s : Kernel) : Except Fault Kernel := do
  let queues ← queuePush .ready p s.queues
  return { s with status := Function.update s.status p .ready, queues := queues }

def checkSleeping (s : Kernel) : Except Fault Kernel := do
  match ← queueFind .sleeping (fun p => s.sleepingDeadline p < getTimer s.toTasks) s.queues with
  | none => return s
  | some p => makeReady p { s with queues := ← queueRemove .sleeping p s.queues }

/-- `while (queue_is_empty(&ready_queue))` of `scheduler`, which breaks when nobody sleeps. The time
does not advance here, so a round that wakes nobody is repeated for ever. -/
def awaitReady : Nat → Kernel → Except Fault Kernel
  | 0, s =>
    if queueIsEmpty .ready s.queues && !queueIsEmpty .sleeping s.queues then .error .hang else .ok s
  | n + 1, s =>
    if queueIsEmpty .ready s.queues && !queueIsEmpty .sleeping s.queues then do
      awaitReady n (← checkSleeping s)
    else .ok s

/-- The first lines of `scheduler`: the process that was running becomes ready, and is queued
unless it is the initial one. -/
def yieldCurrent (s : Kernel) : Except Fault Kernel :=
  let p := s.currentRunning
  let s := { s with
    cursorX := Function.update s.cursorX p s.screenCursorX
    cursorY := Function.update s.cursorY p s.screenCursorY }
  if s.status p = .running then
    if s.entryPoint p ≠ 0 then makeReady p s
    else .ok { s with status := Function.update s.status p .ready }
  else .ok s

def dispatch (s : Kernel) : Except Fault Kernel := do
  let p ← queueClimb .ready s.priority s.queues
  let old := s.currentRunning
  let queues ← queueRemove .ready p s.queues
  return { s with
    priority := Function.update s.priority old (int (s.priority old - 1))
    currentRunning := p
    queues := queues
    status := Function.update s.status p .running
    screenCursorX := s.cursorX p
    screenCursorY := s.cursorY p }

def scheduler (s : Kernel) : Except Fault Kernel := do
  let s ← yieldCurrent s
  let s ← checkSleeping s
  let s ← awaitReady fuel s
  dispatch s

/-- `do_scheduler` saves the kernel context of the caller, who goes on at `k` when it runs again,
and returns in the process that `scheduler` picked. -/
def doScheduler (k : Resume) (s : Kernel) : Except Fault Kernel :=
  scheduler { s with kernelContext := Function.update s.kernelContext s.currentRunning k }

/-- `if (current_running->status == TASK_RUNNING) { ... }`. -/
def whenRunning (body : Kernel → Except Fault Kernel) (s : Kernel) : Except Fault Kernel :=
  if s.status s.currentRunning = .running then body s else .ok s

def sleepCurrent (sleepTime : Nat) (s : Kernel) : Except Fault Kernel := do
  let p := s.currentRunning
  let queues ← queuePush .sleeping p s.queues
  return { s with
    status := Function.update s.status p .sleeping
    sleepingDeadline := Function.update s.sleepingDeadline p (word (getTimer s.toTasks + sleepTime))
    queues := queues }

def doSleep (sleepTime : Nat) (s : Kernel) : Except Fault Kernel := do
  doScheduler .user (← whenRunning (sleepCurrent sleepTime) s)

/-- `current_running->status = TASK_BLOCKED; queue_push(q, current_running)`. -/
def blockCurrent (q : QueueRef) (s : Kernel) : Except Fault Kernel := do
  let queues ← queuePush q s.currentRunning s.queues
  return { s with status := Function.update s.status s.currentRunning .blocked, queues := queues }

def doBlock (q : QueueRef) (k : Resume) (s : Kernel) : Except Fault Kernel := do
  doScheduler k (← whenRunning (blockCurrent q) s)

def doUnblockOne (q : QueueRef) (s : Kernel) : Except Fault Kernel :=
  if queueIsEmpty q s.queues then .ok s
  else do
    let p ← queueClimb q s.priority s.queues
    makeReady p { s with queues := ← queueRemove q p s.queues }

def drain (q : QueueRef) (body : Kernel → Except Fault Kernel) : Nat → Kernel → Except Fault Kernel
  | 0, s => if queueIsEmpty q s.queues then .ok s else .error .hang
  | n + 1, s => if queueIsEmpty q s.queues then .ok s else do drain q body n (← body s)

def doUnblockAll (q : QueueRef) (s : Kernel) : Except Fault Kernel :=
  drain q (doUnblockOne q) fuel s

/-- `head = queue_dequeue(q); head->status = TASK_READY; queue_push(&ready_queue, head)`. -/
def wakeHead (q : QueueRef) (s : Kernel) : Except Fault Kernel := do
  let (p, queues) ← queueDequeue q s.queues
  makeReady p { s with queues := queues }

def clearWaitingQueue (q : QueueRef) (s : Kernel) : Except Fault Kernel :=
  drain q (wakeHead q) fuel s

end Ucas.Sched

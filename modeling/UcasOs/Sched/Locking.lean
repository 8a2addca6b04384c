import UcasOs.Sched.Scheduler

/-! `lock.c`, `sem.c`, `cond.c` and `barrier.c`. -/

namespace Ucas.Sched

def doMutexLockInit (m : MutexRef) (s : Kernel) : Kernel :=
  { s with
    mutexStatus := Function.update s.mutexStatus m .unlocked
    queues := queueInit (.mutex m) s.queues }

/-- The end of `do_mutex_lock_acquire`: the lock is entered into the first free place of `lock[]`,
or nowhere when all are taken. -/
def recordLock (p : PcbRef) (m : MutexRef) (s : Kernel) : Kernel :=
  match (List.range lockMaxNum).find? fun i => (s.lock p i).isNone with
  | none => s
  | some i => { s with
      lock := Function.update s.lock p (Function.update (s.lock p) i (some m))
      lockNum := Function.update s.lockNum p (word (s.lockNum p + 1)) }

/-- One round of the loop of `do_mutex_lock_acquire`; a blocked process comes back to the test. -/
def doMutexLockAcquire (m : MutexRef) (s : Kernel) : Except Fault Kernel :=
  if s.mutexStatus m = .locked then doBlock (.mutex m) (.acquire m) s
  else .ok (recordLock s.currentRunning m
    { s with mutexStatus := Function.update s.mutexStatus m .locked })

/-- The inner loop of `do_mutex_lock_release` on one waiter's `lock[]` and `lock_num`, from place
`i` on. It clears every place it passes after the first. -/
def eraseRecord (m : MutexRef) :
    Nat → Nat → (Nat → Option MutexRef) × Nat → (Nat → Option MutexRef) × Nat
  | 0, _, r => r
  | n + 1, i, (lock, num) =>
    if lock i = some m ∨ lockMaxNum ≤ i + 1 then (lock, num)
    else eraseRecord m n (i + 1) (Function.update lock (i + 1) none, word (num + (2 ^ 32 - 1)))

def eraseWaiter (m : MutexRef) (s : Kernel) (p : PcbRef) : Kernel :=
  let r := eraseRecord m lockMaxNum 0 (s.lock p, s.lockNum p)
  { s with lock := Function.update s.lock p r.1, lockNum := Function.update s.lockNum p r.2 }

def doMutexLockRelease (m : MutexRef) (s : Kernel) : Except Fault Kernel :=
  if s.mutexStatus m = .locked then do
    let s := { s with mutexStatus := Function.update s.mutexStatus m .unlocked }
    let waiters ← queueItems (.mutex m) s.queues
    doUnblockAll (.mutex m) (waiters.foldl (eraseWaiter m) s)
  else .ok s

def doSemaphoreInit (x : Nat) (val : Int) (s : Kernel) : Kernel :=
  { s with
    semValue := Function.update s.semValue x val
    queues := queueInit (.semaphore x) s.queues }

def doSemaphoreUp (x : Nat) (s : Kernel) : Except Fault Kernel :=
  if queueIsEmpty (.semaphore x) s.queues then
    .ok { s with semValue := Function.update s.semValue x (s.semValue x + 1) }
  else wakeHead (.semaphore x) s

def doSemaphoreDown (x : Nat) (s : Kernel) : Except Fault Kernel :=
  if s.semValue x = 0 then do doScheduler .user (← blockCurrent (.semaphore x) s)
  else .ok { s with semValue := Function.update s.semValue x (s.semValue x - 1) }

def doConditionInit (c : Nat) (s : Kernel) : Kernel :=
  { s with queues := queueInit (.condition c) s.queues }

def doConditionWait (m : MutexRef) (c : Nat) (s : Kernel) : Except Fault Kernel := do
  let s ← blockCurrent (.condition c) s
  let s ← doMutexLockRelease m s
  doScheduler (.acquire m) s

def doConditionSignal (c : Nat) (s : Kernel) : Except Fault Kernel :=
  if queueIsEmpty (.condition c) s.queues then .ok s else wakeHead (.condition c) s

def doConditionBroadcast (c : Nat) (s : Kernel) : Except Fault Kernel :=
  drain (.condition c) (wakeHead (.condition c)) fuel s

def doBarrierInit (b : Nat) (goal : Int) (s : Kernel) : Kernel :=
  { s with
    maxNum := Function.update s.maxNum b goal
    notArriveNum := Function.update s.notArriveNum b goal
    queues := queueInit (.barrier b) s.queues }

def doBarrierWait (b : Nat) (s : Kernel) : Except Fault Kernel :=
  if s.notArriveNum b = 1 then do
    let s ← clearWaitingQueue (.barrier b) s
    return { s with notArriveNum := Function.update s.notArriveNum b (s.maxNum b) }
  else do
    let s := { s with notArriveNum := Function.update s.notArriveNum b (s.notArriveNum b - 1) }
    doScheduler .user (← blockCurrent (.barrier b) s)

end Ucas.Sched

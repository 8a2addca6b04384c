import UcasOs.Sched.Queue
import UcasOs.Lib.Word
import Mathlib.Data.Fintype.Sum
import Mathlib.Tactic.DeriveFintype

/-! The kernel's data: process control blocks, the objects processes wait on, and the queues. -/

namespace Ucas.Sched
open Ucas.Lib

def numMaxTask : Nat := 40
def lockMaxNum : Nat := 10
def maxLockNumTotal : Nat := 34
def initialPriority : Int := 4
def stackMin : Nat := 0xa0f00000
def stackSize : Nat := 0x80000
def stackMax : Nat := 0xa2000000
def vmStackMin : Nat := 0x60000000
def vmStackSize : Nat := 0x1000

def word (n : Nat) : Nat := n % 2 ^ 32

inductive TaskStatus
  | blocked
  | running
  | ready
  | exited
  | created
  | sleeping
  deriving DecidableEq, Repr

inductive LockStatus
  | unlocked
  | locked
  deriving DecidableEq, Repr

/-- A pointer to a process control block: `&pcb_init` or `&pcb[i]`. -/
inductive PcbRef
  | init
  | task (i : Fin numMaxTask)
  deriving DecidableEq, Fintype, Repr

/-- Mutexes are numbered so that `Lock[k]` is mutex `k`: `lock1`, `lock2`, then the locks of the 32
mailboxes. Numbers from `maxLockNumTotal` on are mutexes that are not in that table. -/
abbrev MutexRef := Nat

inductive QueueRef
  | ready
  | sleeping
  | block
  | recvBlock
  | waiting (p : PcbRef)
  | mutex (m : MutexRef)
  | semaphore (s : Nat)
  | condition (c : Nat)
  | barrier (b : Nat)
  | other (n : Nat)
  deriving DecidableEq, Repr

/-- Where a process goes on when `do_scheduler` returns in it: back to user mode, or in the loop of
`do_mutex_lock_acquire`. -/
inductive Resume
  | user
  | acquire (m : MutexRef)
  deriving DecidableEq, Repr

/-- Everything but the queues: the `pcb` array field by field, the kernel's variables, and the
mutexes, semaphores and barriers without their queues. -/
structure Tasks where
  pid : PcbRef → Nat
  entryPoint : PcbRef → Nat
  status : PcbRef → TaskStatus
  cursorX : PcbRef → Int
  cursorY : PcbRef → Int
  priority : PcbRef → Int
  lock : PcbRef → Nat → Option MutexRef
  lockNum : PcbRef → Nat
  sleepingDeadline : PcbRef → Nat
  kernelStackTop : PcbRef → Nat
  userStackTop : PcbRef → Nat
  kernelContext : PcbRef → Resume
  currentRunning : PcbRef
  lastPid : Nat
  stackTop : Nat
  userStackTopVar : Nat
  timeElapsed : Nat
  screenCursorX : Int
  screenCursorY : Int
  mutexStatus : MutexRef → LockStatus
  semValue : Nat → Int
  maxNum : Nat → Int
  notArriveNum : Nat → Int

structure State (Q : Type) extends Tasks where
  queues : Q

def fuel : Nat := numMaxTask + 2

abbrev Links := Heap PcbRef QueueRef

abbrev Kernel := State Links

def Kernel.members (s : Kernel) (q : QueueRef) : List PcbRef :=
  walk s.queues.next fuel (s.queues.queue q).head

def queueFind (q : QueueRef) (p : PcbRef → Bool) (h : Links) : Except Fault (Option PcbRef) :=
  findFrom h.next p fuel (h.queue q).head

def checkInQueue (q : QueueRef) (item : PcbRef) (h : Links) : Except Fault Bool := do
  return (← queueFind q (· = item) h).isSome

def queueItems (q : QueueRef) (h : Links) : Except Fault (List PcbRef) :=
  itemsFrom h.next fuel (h.queue q).head

/-- `while (p != tail && p->priority < p->next->priority) p = p->next`. -/
def climbFrom (next : PcbRef → Option PcbRef) (tail : Option PcbRef) (priority : PcbRef → Int) :
    Nat → PcbRef → Except Fault PcbRef
  | 0, _ => .error .hang
  | n + 1, p =>
    if some p = tail then .ok p
    else match next p with
      | none => .error .nullDeref
      | some p' => if priority p < priority p' then climbFrom next tail priority n p' else .ok p

/-- The choice that `scheduler` and `do_unblock_one` make in a queue: the first local maximum of
the priority. -/
def queueClimb (q : QueueRef) (priority : PcbRef → Int) (h : Links) : Except Fault PcbRef :=
  match (h.queue q).head with
  | none => .error .nullDeref
  | some p => climbFrom h.next (h.queue q).tail priority fuel p

end Ucas.Sched

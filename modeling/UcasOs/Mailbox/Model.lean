import UcasOs.Sched.Condition
import UcasOs.Sched.Semaphore
import UcasOs.Lib.Buffer
import Mathlib.Algebra.Order.BigOperators.Group.Finset

/-! `mailbox.c` on top of the kernel. Each process is at a place in its own program; system calls
are steps of the kernel, and the statements between them are steps in user mode. Beside the mailbox
we record the messages whose send was called, those that were stored and those that were copied out.
-/

namespace Ucas.Mailbox
open Ucas.Lib Ucas.Sched Relation

def maxMboxLength : Nat := 32
def maxMessageLength : Nat := 32

structure MboxRef where
  lock : MutexRef
  send : Nat
  recv : Nat
  distinct : send ≠ recv

/-- The next statement of a process in `mbox_send` or `mbox_recv`, with the message in its buffer.
-/
inductive Pc (len : Nat)
  | out
  | sendAcquire (m : Buffer len)
  | sendMove (m : Buffer len)
  | sendCopy (m : Buffer len)
  | sendRelease
  | sendUp
  | recvAcquire
  | recvCopy
  | recvMove (m : Buffer len)
  | recvRelease (m : Buffer len)
  | recvUp (m : Buffer len)

variable {len : Nat}

structure Conf (len : Nat) where
  kernel : Kernel
  holders : Finset PcbRef
  ptr : Nat
  msg : Nat → Buffer maxMessageLength
  pc : PcbRef → Pc len
  sent : List (Buffer len)
  stored : List (Buffer len)
  received : List (Buffer len)

inductive Event (len : Nat)
  | send (m : Buffer len)
  | recv
  | next
  | other (op : Op)

def Pc.acquired : Pc len → Pc len
  | .sendAcquire m => .sendMove m
  | .recvAcquire => .recvCopy
  | k => k

/-- The place of the caller after `op`: past the acquire of the lock once it is in user mode. -/
def afterAcquire (b : MboxRef) (c : Conf len) (op : Op) (s' : Kernel) : Pc len :=
  let k := c.pc c.kernel.currentRunning
  if acquiring c.kernel op = some b.lock ∧
      s'.kernelContext c.kernel.currentRunning = .user then k.acquired else k

def Conf.call (b : MboxRef) (c : Conf len) (op : Op) (k : Kernel → Pc len) :
    Except Fault (Conf len) := do
  let s' ← step op c.kernel
  return { c with
    kernel := s'
    holders := holdersAfter b.lock c.kernel op s' c.holders
    pc := Function.update c.pc c.kernel.currentRunning (k s') }

def Conf.inUser (c : Conf len) (k : Pc len) (c' : Conf len) : Except Fault (Conf len) :=
  if c.kernel.kernelContext c.kernel.currentRunning = .user then
    .ok { c' with pc := Function.update c'.pc c.kernel.currentRunning k }
  else .error .disabled

def mboxSend (b : MboxRef) (m : Buffer len) (c : Conf len) : Except Fault (Conf len) :=
  { c with sent := c.sent ++ [m] }.call b (.down b.send) fun _ => .sendAcquire m

def mboxRecv (b : MboxRef) (c : Conf len) : Except Fault (Conf len) :=
  c.call b (.down b.recv) fun _ => .recvAcquire

def nextStatement (b : MboxRef) (c : Conf len) : Except Fault (Conf len) :=
  match c.pc c.kernel.currentRunning with
  | .out => .error .disabled
  | .sendAcquire _ | .recvAcquire => c.call b (.acquire b.lock) (afterAcquire b c (.acquire b.lock))
  | .sendMove m => c.inUser (.sendCopy m) { c with ptr := (c.ptr + 1) % maxMboxLength }
  | .sendCopy m => c.inUser .sendRelease { c with
      msg := Function.update c.msg c.ptr ((c.msg c.ptr).blit 0 m)
      stored := c.stored ++ [m] }
  | .sendRelease => c.call b (.release b.lock) fun _ => .sendUp
  | .sendUp => c.call b (.up b.recv) fun _ => .out
  | .recvCopy =>
    let m := (c.msg c.ptr).slice 0 len
    c.inUser (.recvMove m) { c with received := c.received ++ [m] }
  | .recvMove m =>
    c.inUser (.recvRelease m) { c with ptr := (c.ptr + maxMboxLength - 1) % maxMboxLength }
  | .recvRelease m => c.call b (.release b.lock) fun _ => .recvUp m
  | .recvUp _ => c.call b (.up b.send) fun _ => .out

def Pc.isOut : Pc len → Bool
  | .out => true
  | _ => false

def mboxStep (b : MboxRef) (c : Conf len) : Event len → Except Fault (Conf len)
  | .send m => if (c.pc c.kernel.currentRunning).isOut then mboxSend b m c else .error .disabled
  | .recv => if (c.pc c.kernel.currentRunning).isOut then mboxRecv b c else .error .disabled
  | .next => nextStatement b c
  | .other op => c.call b op (afterAcquire b c op)

def Apart (b : MboxRef) : Op → Prop
  | .exit | .kill _ => False
  | .block q | .unblockOne q | .unblockAll q =>
    q ≠ .ready ∧ q ≠ .sleeping ∧ q ≠ .mutex b.lock ∧ q ≠ .semaphore b.send ∧ q ≠ .semaphore b.recv
  | .mutexInit m | .acquire m | .release m | .wait m _ => m ≠ b.lock
  | .semaphoreInit x _ | .up x | .down x => x ≠ b.send ∧ x ≠ b.recv
  | _ => True

/-- A process inside `mbox_send` or `mbox_recv` makes no other calls; it may be interrupted, and it
goes on in `do_mutex_lock_acquire`. -/
def Allowed (b : MboxRef) (c : Conf len) : Event len → Prop
  | .other op =>
    Apart b op ∧ ((c.pc c.kernel.currentRunning).isOut = true ∨ op = .resume ∨ ∃ r, op = .tick r)
  | _ => True

def mboxOpen (b : MboxRef) (s : Kernel) : Except Fault Kernel := do
  let s ← step (.mutexInit b.lock) s
  let s ← step (.semaphoreInit b.send maxMboxLength) s
  step (.semaphoreInit b.recv 0) s

def fresh (s : Kernel) (msg : Nat → Buffer maxMessageLength) : Conf len where
  kernel := s
  holders := ∅
  ptr := 0
  msg := msg
  pc := fun _ => .out
  sent := []
  stored := []
  received := []

def MboxSteps (b : MboxRef) (P : Conf len → Event len → Prop) (c c' : Conf len) : Prop :=
  ∃ e, Allowed b c e ∧ P c e ∧ mboxStep b c e = .ok c'

def MboxReachable (b : MboxRef) (P : Conf len → Event len → Prop) (c : Conf len) : Prop :=
  ∃ s₁ s₂ msg, Reachable KillsFind s₁ ∧ mboxOpen b s₁ = .ok s₂ ∧
    ReflTransGen (MboxSteps b P) (fresh s₂ msg) c

def mboxRun (b : MboxRef) (check : Conf len → Event len → Bool) (ops : List Op)
    (events : List (Event len)) :
    Except Fault (Conf len) := do
  let s ← mboxOpen b (← execute 1 ops)
  events.foldlM (checked check .disabled (mboxStep b)) (fresh s fun _ => Buffer.zero)

theorem mboxReachable_of_run {b : MboxRef} {P : Conf len → Event len → Prop}
    {check : Conf len → Event len → Bool} {ops : List Op} {events : List (Event len)}
    {c : Conf len} (hops : ∀ op ∈ ops, ∀ s, KillsFind s op)
    (hP : ∀ c e, check c e = true → Allowed b c e ∧ P c e)
    (h : mboxRun b check ops events = .ok c) :
    MboxReachable b P c := by
  obtain ⟨s₁, hs₁, h⟩ := exists_of_bind_ok h
  obtain ⟨s₂, hs₂, h⟩ := exists_of_bind_ok h
  refine ⟨s₁, s₂, _, reachable_execute (by decide) hops hs₁, hs₂,
    ReflTransGen.mono ?_ _ _ (path_of_checked h)⟩
  rintro c c' ⟨e, he, hstep⟩
  exact ⟨e, (hP c e he).1, (hP c e he).2, hstep⟩

end Ucas.Mailbox

import UcasOs.Shell.Params

/-! `test_shell`. Every character is stored in one buffer, behind all the lines typed before, and on
the return key the commands are compared, one after the other, with what the buffer has at
`pointer`. The bytes from `pointer` on are one buffer here, so that an offset into it is an offset
into the line. An access outside a buffer ends the run. -/

namespace Ucas.Shell
open Ucas.Lib Ucas.Libs

variable {m : Nat}

/-- `*(b + o) == c && *(b + o + 1) == ..`, read as far as the comparison goes. -/
def startsWith (b : Buffer m) : List UInt8 → Nat → Option Bool
  | [], _ => some true
  | c :: name, o =>
    if o < m then if b.get o = c then startsWith b name (o + 1) else some false else none

/-- The C string at `b + o`. -/
def cstring (b : Buffer m) (o : Nat) : Option (List UInt8) :=
  if o < m then if b.get o = 0 then some [] else (cstring b (o + 1)).map (b.get o :: ·) else none
termination_by m - o

def handleFrom (b : Buffer m) (o : Nat) : Nat → Option (Buffer m)
  | 0 => some b
  | rounds + 1 =>
    if o < m then if b.get o = 13 then some (b.set o 0) else handleFrom b (o + 1) rounds else none

abbrev maxPathLength : Nat := 512

/-- `handle_input(b + o)` -/
def handleInput (b : Buffer m) (o : Nat) : Option (Buffer m) := handleFrom b o maxPathLength

inductive Command
  | ps | clear | exec | kill | mkfs | statfs | cd | mkdir | rmdir | ls | touch | cat | find | rename
    | symlink | link
  | pwd | dump | du | df | diff | wc | rm | mv | cp | chmod | man
  deriving DecidableEq, Repr

inductive Form
  | plain | number | path | params
  deriving DecidableEq, Repr

structure Entry where
  name : List UInt8
  command : Command
  form : Form

def chars (l : List Char) : List UInt8 := l.map fun c => UInt8.ofNat c.toNat

def commands : List Entry :=
  [⟨chars ['p', 's'], .ps, .plain⟩,
    ⟨chars ['c', 'l', 'e', 'a', 'r'], .clear, .plain⟩,
    ⟨chars ['e', 'x', 'e', 'c', ' '], .exec, .number⟩,
    ⟨chars ['k', 'i', 'l', 'l', ' '], .kill, .number⟩,
    ⟨chars ['m', 'k', 'f', 's'], .mkfs, .plain⟩,
    ⟨chars ['s', 't', 'a', 't', 'f', 's'], .statfs, .plain⟩,
    ⟨chars ['c', 'd', ' '], .cd, .path⟩,
    ⟨chars ['m', 'k', 'd', 'i', 'r', ' '], .mkdir, .path⟩,
    ⟨chars ['r', 'm', 'd', 'i', 'r', ' '], .rmdir, .path⟩,
    ⟨chars ['l', 's'], .ls, .plain⟩,
    ⟨chars ['t', 'o', 'u', 'c', 'h', ' '], .touch, .path⟩,
    ⟨chars ['c', 'a', 't', ' '], .cat, .path⟩,
    ⟨chars ['f', 'i', 'n', 'd', ' '], .find, .params⟩,
    ⟨chars ['r', 'e', 'n', 'a', 'm', 'e', ' '], .rename, .params⟩,
    ⟨chars ['l', 'n', ' ', '-', 's', ' '], .symlink, .params⟩,
    ⟨chars ['l', 'n', ' '], .link, .params⟩,
    ⟨chars ['p', 'w', 'd'], .pwd, .plain⟩,
    ⟨chars ['d', 'u', 'm', 'p'], .dump, .plain⟩,
    ⟨chars ['d', 'u'], .du, .plain⟩,
    ⟨chars ['d', 'f'], .df, .plain⟩,
    ⟨chars ['d', 'i', 'f', 'f', ' '], .diff, .params⟩,
    ⟨chars ['w', 'c', ' '], .wc, .path⟩,
    ⟨chars ['r', 'm', ' '], .rm, .path⟩,
    ⟨chars ['m', 'v', ' '], .mv, .params⟩,
    ⟨chars ['c', 'p', ' '], .cp, .params⟩,
    ⟨chars ['c', 'h', 'm', 'o', 'd', ' '], .chmod, .path⟩,
    ⟨chars ['m', 'a', 'n', ' '], .man, .path⟩]

inductive Call
  | nothing
  | plain (command : Command)
  | number (command : Command) (k : UInt32)
  | path (command : Command) (name : List UInt8)
  | params (command : Command) (first second : List UInt8)
  deriving DecidableEq

/-- `(k = atoi(..)) >= 0 && k <= num_test_tasks - 1` -/
def isTask (k : UInt32) : Bool := k.toNat < 2 ^ 31 && k ≤ 23

/-- A branch whose characters are those of the line: `none` inside when its number is out of range,
else the call and the buffer `handle_input` leaves. -/
def Entry.act (e : Entry) (b : Buffer m) : Option (Option (Buffer m × Call)) :=
  match e.form with
  | .plain => some (some (b, .plain e.command))
  | .number => do
    let k ← atoi b e.name.length
    return if isTask k then some (b, .number e.command k) else none
  | .path => do
    let b ← handleInput b e.name.length
    let name ← cstring b e.name.length
    return some (b, .path e.command name)
  | .params => do
    let b ← handleInput b e.name.length
    let p ← separateParams b e.name.length
    let first ← cstring p 0
    let second ← cstring p 20
    return some (b, .params e.command first second)

def Entry.branch (e : Entry) (b : Buffer m) : Option (Option (Buffer m × Call)) :=
  (startsWith b e.name 0).bind fun ok => if ok then e.act b else some none

def dispatch (b : Buffer m) : List Entry → Option (Buffer m × Call)
  | [] => some (b, .nothing)
  | e :: es => (e.branch b).bind fun r => r.elim (dispatch b es) some

structure InputBuffer where
  buffer : Buffer inputBufferMaxLength
  i : Nat
  pointer : Nat

namespace InputBuffer

def init : InputBuffer := ⟨.zero, 0, 0⟩

/-- `*(buffer + i) = ch; i++` -/
def put (s : InputBuffer) (ch : UInt8) : Option InputBuffer :=
  if s.i < inputBufferMaxLength then
    some { s with buffer := s.buffer.set s.i ch, i := s.i + 1 } else none

/-- The branch `ch == '\r'`. -/
def enter (s : InputBuffer) : Option (InputBuffer × Call) :=
  (dispatch (s.buffer.slice s.pointer (inputBufferMaxLength - s.pointer)) commands).map fun (b,
      call) =>
    ({ s with buffer := s.buffer.blit s.pointer b, pointer := s.i }, call)

def key (s : InputBuffer) (ch : UInt8) : Option (InputBuffer × List Call) :=
  (s.put ch).bind fun s => if ch = 13 then s.enter.map fun (s, call) => (s, [call]) else
    some (s, [])

def keys (s : InputBuffer) : List UInt8 → Option (InputBuffer × List Call)
  | [] => some (s, [])
  | ch :: l =>
    (s.key ch).bind fun (s, calls) => (s.keys l).map fun (s, calls') => (s, calls ++ calls')

end InputBuffer

end Ucas.Shell

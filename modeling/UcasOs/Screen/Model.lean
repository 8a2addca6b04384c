import UcasOs.Screen.Printk
import UcasOs.Lib.Simulation
import UcasOs.Lib.Refinement
import UcasOs.Lib.Word

/-! The screen driver. `new_screen` is what the screen should show; `old_screen` is what the driver
has sent, with 0 for a cell it must send again. -/

namespace Ucas.Screen
open Ucas.Lib

def screenWidth : Nat := 80
def screenHeight : Nat := 60

inductive Fault
  /-- An access outside of `new_screen` or `old_screen`. -/
  | bounds
  | printk
  deriving DecidableEq, Repr

structure Console where
  cursorX : Int
  cursorY : Int
  newScreen : Nat → UInt8
  oldScreen : Nat → UInt8
  /-- The bytes written to the serial port so far. -/
  sent : Text

def index (i : Int) : Except Fault Nat :=
  if 0 ≤ i ∧ i < screenHeight * screenWidth then .ok i.toNat else .error .bounds

def putNew (i : Int) (ch : UInt8) (s : Console) : Except Fault Console := do
  return { s with newScreen := Function.update s.newScreen (← index i) ch }

def putOld (i : Int) (ch : UInt8) (s : Console) : Except Fault Console := do
  return { s with oldScreen := Function.update s.oldScreen (← index i) ch }

/-- `for (i = ...) for (j = 0; j < SCREEN_WIDTH; j++)` -/
def forCells {σ : Type} (lines : List Nat) (f : Nat → Nat → σ → Except Fault σ) (s : σ) :
    Except Fault σ :=
  lines.foldlM (fun s i => (List.range screenWidth).foldlM (fun s j => f i j s) s) s

def subscript (i j : Nat) : Int := (i * screenWidth + j : Nat)

def portWrite (fmt : Text) (va : List Arg) (s : Console) : Except Fault Console :=
  match printk fmt va with
  | some l => .ok { s with sent := s.sent ++ l }
  | none => .error .printk

def portWriteCh (ch : UInt8) (s : Console) : Console := { s with sent := s.sent ++ [ch] }

/-- `printk("%c[%d;%dH", 27, y, x)` -/
def vt100MoveCursor (x y : Int) : Console → Except Fault Console :=
  portWrite [37, 99, 91, 37, 100, 59, 37, 100, 72]
    [.word 27, .word (BitVec.ofInt 32 y), .word (BitVec.ofInt 32 x)]

/-- `printk("%c[2J", 27)` -/
def vt100Clear : Console → Except Fault Console := portWrite [37, 99, 91, 50, 74] [.word 27]

/-- `printk("%c[?25l", 27)` -/
def vt100HiddenCursor : Console → Except Fault Console :=
  portWrite [37, 99, 91, 63, 50, 53, 108] [.word 27]

def screenScroll (line1 line2 : Nat) (s : Console) : Except Fault Console := do
  let lines := List.range' line1 (line2 + 1 - line1)
  let s ← forCells lines (fun i j => putOld (subscript i j) 0) s
  forCells lines
    (fun i j s => do
      if i = line2 then putNew (subscript i j) 32 s
      else putNew (subscript i j) (s.newScreen (← index (subscript (i + 1) j))) s) s

def keepInside (s : Console) : Except Fault Console :=
  let s : Console := if s.cursorX < 0 then { s with cursorX := 0 } else s
  let s : Console := if s.cursorX ≥ screenWidth then
    { s with cursorX := 0, cursorY := int (s.cursorY + 1) } else s
  let s : Console := if s.cursorY < 0 then { s with cursorY := 0 } else s
  if s.cursorY ≥ screenHeight then do
    let s ← screenScroll (screenHeight / 2 + 1) (screenHeight - 1) s
    return { s with cursorX := 0, cursorY := screenHeight - 1 }
  else .ok s

/-- `screen_cursor_y * SCREEN_WIDTH + screen_cursor_x` -/
def cursorIndex (s : Console) : Int := int (int (s.cursorY * screenWidth) + s.cursorX)

def screenWriteCh (ch : UInt8) (s : Console) : Except Fault Console := do
  if ch = 10 then keepInside { s with cursorX := 0, cursorY := int (s.cursorY + 1) }
  else if ch = 8 then
    if s.cursorX > 0 then
      let s : Console := { s with cursorX := s.cursorX - 1 }
      keepInside (← putNew (cursorIndex s) 32 s)
    else keepInside s
  else if ch = 13 then keepInside { s with cursorX := 0, cursorY := int (s.cursorY + 1) }
  else
    let s ← putNew (cursorIndex s) ch s
    keepInside { s with cursorX := int (s.cursorX + 1) }

def screenWrite (buff : Text) (s : Console) : Except Fault Console :=
  (buff.takeWhile (· ≠ 0)).foldlM (fun s ch => screenWriteCh ch s) s

def screenMoveCursor (x y : Int) (s : Console) : Console := { s with cursorX := x, cursorY := y }

def reflushCell (i j : Nat) (s : Console) : Except Fault Console := do
  let k ← index (subscript i j)
  if s.newScreen k ≠ s.oldScreen k then
    let s ← vt100MoveCursor (j + 1) (i + 1) s
    putOld (subscript i j) (s.newScreen k) (portWriteCh (s.newScreen k) s)
  else return s

def screenReflush (s : Console) : Except Fault Console := do
  let s ← forCells (List.range screenHeight) reflushCell s
  vt100MoveCursor s.cursorX s.cursorY s

def screenClear (_line1 _line2 : Int) (s : Console) : Except Fault Console := do
  let s ← forCells (List.range screenHeight)
    (fun i j s => do putOld (subscript i j) 0 (← putNew (subscript i j) 32 s)) s
  screenReflush { s with cursorX := 0, cursorY := 0 }

def initScreen (s : Console) : Except Fault Console := do
  let s ← vt100HiddenCursor s
  let s ← vt100Clear s
  screenClear 0 (screenHeight - 1) s

def doWrite (buff : Text) (s : Console) : Except Fault Console := do
  screenReflush (← screenWrite buff s)

inductive Op
  | write (buff : Text)
  | moveCursor (x y : Int)
  | clear (line1 line2 : Int)
  | reflush
  | doWrite (buff : Text)

def exec (op : Op) (s : Console) : Except Fault Console :=
  match op with
  | .write buff => screenWrite buff s
  | .moveCursor x y => .ok (screenMoveCursor x y s)
  | .clear line1 line2 => screenClear line1 line2 s
  | .reflush => screenReflush s
  | .doWrite buff => doWrite buff s

def run (ops : List Op) (s : Console) : Except Fault Console := do
  ops.foldlM (fun s op => exec op s) (← initScreen s)

end Ucas.Screen

import Mathlib.Tactic.Common

/-! A terminal that reads bytes from a serial line. It draws printable bytes at its cursor and obeys
the control sequences `ESC [ r ; c H`, which moves the cursor, and `ESC [ 2 J`, which clears the
screen. It reads over the other ones. Rows and columns count from one. -/

namespace Ucas.Lib.Vt100

inductive Mode
  | ground
  | escape
  /-- Inside a control sequence: the numbers read so far and the one that is being read. -/
  | control (params : List Nat) (n : Nat)
  deriving DecidableEq, Repr

structure Terminal where
  mode : Mode
  row : Nat
  column : Nat
  /-- Where the cursor goes after a byte is drawn. Devices differ at the right margin. -/
  next : Nat → Nat → Nat × Nat
  cell : Nat → Nat → UInt8

def Printable (b : UInt8) : Prop := 32 ≤ b.toNat ∧ b.toNat ≤ 126

instance (b : UInt8) : Decidable (Printable b) := inferInstanceAs (Decidable (_ ∧ _))

theorem Printable.ne_zero {b : UInt8} (h : Printable b) : b ≠ 0 := by
  rintro rfl
  exact absurd h (by decide)

namespace Terminal

def draw (t : Terminal) (b : UInt8) : Terminal :=
  { t with
    row := (t.next t.row t.column).1
    column := (t.next t.row t.column).2
    cell := fun r c => if r = t.row ∧ c = t.column then b else t.cell r c }

def move (t : Terminal) (r c : Nat) : Terminal := { t with row := max r 1, column := max c 1 }

def obey (t : Terminal) (b : UInt8) (params : List Nat) : Terminal :=
  if b = 72 then
    match params with
    | [r, c] => t.move r c
    | _ => t
  else if b = 74 ∧ params = [2] then { t with cell := fun _ _ => 32 }
  else t

def receive (t : Terminal) (b : UInt8) : Terminal :=
  match t.mode with
  | .ground =>
    if b = 27 then { t with mode := .escape }
    else if Printable b then t.draw b
    else t
  | .escape => { t with mode := if b = 91 then .control [] 0 else .ground }
  | .control params n =>
    if 48 ≤ b.toNat ∧ b.toNat ≤ 57 then { t with mode := .control params (n * 10 + (b.toNat - 48)) }
    else if b = 59 then { t with mode := .control (params ++ [n]) 0 }
    else if 64 ≤ b.toNat ∧ b.toNat ≤ 126 then ({ t with mode := .ground } : Terminal).obey b
      (params ++ [n])
    else t

def feed (t : Terminal) (l : List UInt8) : Terminal := l.foldl receive t

variable {t : Terminal} {l : List UInt8} {b : UInt8}

@[simp] theorem feed_nil : t.feed [] = t := rfl

theorem feed_cons : t.feed (b :: l) = (t.receive b).feed l := rfl

theorem feed_append (l l' : List UInt8) : t.feed (l ++ l') = (t.feed l).feed l' := List.foldl_append

theorem receive_printable (ht : t.mode = .ground) (hb : Printable b) : t.receive b = t.draw b := by
  have hne : b ≠ 27 := by
    rintro rfl
    exact absurd hb (by decide)
  simp only [receive, ht, if_neg hne, if_pos hb]

theorem cell_move_draw (t : Terminal) (r c : Nat) (b : UInt8) (r' c' : Nat) :
    ((t.move (r + 1) (c + 1)).draw b).cell r' c' = if r' = r + 1 ∧ c' = c + 1 then b else
    t.cell r' c' := by
  have hr : max (r + 1) 1 = r + 1 := by omega
  have hc : max (c + 1) 1 = c + 1 := by omega
  simp only [draw, move, hr, hc]

end Terminal

def value (l : List UInt8) : Nat := l.foldl (fun n b => n * 10 + (b.toNat - 48)) 0

def Digits (l : List UInt8) : Prop := ∀ b ∈ l, 48 ≤ b.toNat ∧ b.toNat ≤ 57

theorem feed_digits {t : Terminal} {l : List UInt8} (hl : Digits l) (params : List Nat) (n : Nat) :
    ({ t with mode := .control params n } : Terminal).feed l =
      { t with mode := .control params (l.foldl (fun n b => n * 10 + (b.toNat - 48)) n) } := by
  induction l generalizing n with
  | nil => rfl
  | cons b l ih =>
    rw [Terminal.feed_cons, Terminal.receive]
    dsimp only
    rw [if_pos (hl b List.mem_cons_self), List.foldl_cons]
    exact ih (fun d hd => hl d (List.mem_cons_of_mem _ hd)) _

def moveBytes (r c : List UInt8) : List UInt8 := [27, 91] ++ r ++ [59] ++ c ++ [72]

theorem feed_moveBytes {t : Terminal} {r c : List UInt8} (ht : t.mode = .ground) (hr : Digits r)
    (hc : Digits c) :
    t.feed (moveBytes r c) = t.move (value r) (value c) := by
  have hopen : t.feed [27, 91] = { t with mode := .control [] 0 } := by
    simp [Terminal.feed, Terminal.receive, ht]
  have hback : ({ t with mode := .ground } : Terminal) = t := by rw [← ht]
  rw [moveBytes, Terminal.feed_append, Terminal.feed_append, Terminal.feed_append,
    Terminal.feed_append, hopen,
    feed_digits hr, ← value]
  have hsep : ({ t with mode := .control [] (value r) } : Terminal).feed [59] =
      { t with mode := .control [value r] 0 } := by
    simp [Terminal.feed, Terminal.receive]
  rw [hsep, feed_digits hc, ← value]
  simp [Terminal.feed, Terminal.receive, Terminal.obey, hback]

end Ucas.Lib.Vt100

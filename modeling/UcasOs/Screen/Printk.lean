import UcasOs.Lib.Vt100
import Mathlib.Algebra.Group.Int.Defs
import Mathlib.Algebra.Group.Nat.Defs

/-! `printk`: the formatter `mini_vsnprintf` with its buffer, and the bytes that go out on the
serial port. A text is a list of bytes without its terminating NUL. -/

namespace Ucas.Screen
open Ucas.Lib

abbrev Text := List UInt8

inductive Arg
  | word (v : BitVec 32)
  | str (s : Text)

def digitChar (digit : Nat) (uppercase : Bool) : UInt8 :=
  UInt8.ofNat (if digit < 10 then 48 + digit else (if uppercase then 65 else 97) + digit - 10)

/-- The loop of `mini_itoa`, which writes the digits back to front. In `value % radix` the operands
are unsigned, and the loop ends when the quotient is not positive as an `int`. A word has at most 32
digits. -/
def itoaDigits (radix : Nat) (uppercase : Bool) : Nat → Nat → Text
  | 0, _ => []
  | fuel + 1, value =>
    digitChar (value % radix) uppercase ::
      if 0 < value / radix ∧ value / radix < 2 ^ 31 then itoaDigits radix uppercase fuel
      (value / radix) else []

def miniItoa (value : BitVec 32) (radix : Nat) (uppercase unsig : Bool) (zeroPad : Nat) : Text :=
  if radix > 16 then []
  else
    let negative := value.msb && !unsig
    let digits := itoaDigits radix uppercase 32 (if negative then -value else value).toNat
    let padded := digits ++ List.replicate (zeroPad - digits.length) 48
    (if negative then padded ++ [45] else padded).reverse

section Buffer
variable (bufferLen : Nat)

def putc (ch : UInt8) (out : Text) : Text := if out.length + 1 ≥ bufferLen then out else out ++ [ch]

def puts (s out : Text) : Text := out ++ s.take (bufferLen - out.length - 1)

def convert (ch : UInt8) (zeroPad : Nat) (va : List Arg) (out : Text) : Option (List Arg × Text) :=
  if ch = 117 ∨ ch = 100 then
    match va with
    | .word v :: va => some (va, puts bufferLen (miniItoa v 10 false (ch == 117) zeroPad) out)
    | _ => none
  else if ch = 120 ∨ ch = 88 then
    match va with
    | .word v :: va => some (va, puts bufferLen (miniItoa v 16 (ch == 88) true zeroPad) out)
    | _ => none
  else if ch = 99 then
    match va with
    | .word v :: va => some (va, putc bufferLen (UInt8.ofNat v.toNat) out)
    | _ => none
  else if ch = 115 then
    match va with
    | .str s :: va => some (va, puts bufferLen s out)
    | _ => none
  else some (va, putc bufferLen ch out)

def miniVsnprintf : Text → List Arg → Text → Option Text
  | [], _, out => some out
  | ch :: fmt, va, out =>
    if out.length + 1 ≥ bufferLen then some out
    else if ch ≠ 37 then miniVsnprintf fmt va (putc bufferLen ch out)
    else
      match fmt with
      | [] => some out
      | ch :: fmt =>
        if ch = 48 then
          match fmt with
          | [] => some out
          | [_] => some out
          | d :: ch :: fmt => do
            let zeroPad := if 48 ≤ d.toNat ∧ d.toNat ≤ 57 then d.toNat - 48 else 0
            let (va, out) ← convert bufferLen ch zeroPad va out
            miniVsnprintf fmt va out
        else do
          let (va, out) ← convert bufferLen ch 0 va out
          miniVsnprintf fmt va out

end Buffer

def printk (fmt : Text) (va : List Arg) : Option Text := do
  return (← miniVsnprintf 256 fmt va []).takeWhile (· ≠ 0)

section Decimal

theorem digitChar_decimal {d : Nat} (hd : d < 10) (u : Bool) : (digitChar d u).toNat = 48 + d := by
  simp only [digitChar, if_pos hd, UInt8.toNat_ofNat']
  omega

theorem itoaDigits_length (radix : Nat) (u : Bool) (fuel value : Nat) :
    (itoaDigits radix u fuel value).length ≤ fuel := by
  induction fuel generalizing value with
  | zero => simp [itoaDigits]
  | succ fuel ih =>
    rw [itoaDigits, List.length_cons]
    split
    · exact Nat.succ_le_succ (ih _)
    · simp

theorem itoaDigits_digits (u : Bool) (fuel value : Nat) :
    Vt100.Digits (itoaDigits 10 u fuel value) := by
  induction fuel generalizing value with
  | zero => simp [itoaDigits, Vt100.Digits]
  | succ fuel ih =>
    intro b hb
    rw [itoaDigits, List.mem_cons] at hb
    rcases hb with rfl | hb
    · rw [digitChar_decimal (Nat.mod_lt _ (by decide))]
      omega
    · split at hb
      · exact ih _ b hb
      · cases hb

theorem value_reverse_cons (b : UInt8) (l : Text) :
    Vt100.value (b :: l).reverse = Vt100.value l.reverse * 10 + (b.toNat - 48) := by
  rw [List.reverse_cons, Vt100.value, List.foldl_append]
  rfl

theorem value_itoaDigits (u : Bool) (fuel value : Nat) (hfuel : value < 10 ^ fuel)
    (hv : value < 2 ^ 32) :
    Vt100.value (itoaDigits 10 u fuel value).reverse = value := by
  induction fuel generalizing value with
  | zero =>
    have h0 : value = 0 := by simpa using hfuel
    subst h0
    rfl
  | succ fuel ih =>
    have hlast : (digitChar (value % 10) u).toNat - 48 = value % 10 := by
      rw [digitChar_decimal (Nat.mod_lt _ (by decide))]
      omega
    rw [itoaDigits, value_reverse_cons, hlast]
    split
    · rw [ih (value / 10) (by rw [Nat.pow_succ] at hfuel; omega) (by omega)]
      omega
    · have h0 : value / 10 = 0 := by omega
      simp only [List.reverse_nil, Vt100.value, List.foldl_nil]
      omega

def decimal (n : Nat) : Text := (itoaDigits 10 false 32 n).reverse

theorem decimal_length (n : Nat) : (decimal n).length ≤ 32 := by
  rw [decimal, List.length_reverse]
  exact itoaDigits_length 10 false 32 n

theorem decimal_digits (n : Nat) : Vt100.Digits (decimal n) :=
  fun b hb => itoaDigits_digits false 32 n b (List.mem_reverse.mp hb)

theorem value_decimal {n : Nat} (hn : n < 2 ^ 32) : Vt100.value (decimal n) = n :=
  value_itoaDigits false 32 n (Nat.lt_trans hn (by decide)) hn

theorem miniItoa_decimal {n : Nat} (hn : n < 2 ^ 31) :
    miniItoa (BitVec.ofNat 32 n) 10 false false 0 = decimal n := by
  have hmsb : (BitVec.ofNat 32 n).msb = false := by
    rw [BitVec.msb_eq_decide, BitVec.toNat_ofNat]
    simp
    omega
  have hval : (BitVec.ofNat 32 n).toNat = n := by
    rw [BitVec.toNat_ofNat]
    omega
  simp [miniItoa, hmsb, hval, decimal]

end Decimal

section Format
variable {fmt out : Text} {va : List Arg} {n : Nat}

theorem vsnprintf_copy {ch : UInt8} (hch : ch ≠ 37) (hout : out.length + 1 < 256) :
    miniVsnprintf 256 (ch :: fmt) va out = miniVsnprintf 256 fmt va (out ++ [ch]) := by
  rw [miniVsnprintf.eq_def]
  simp only
  rw [if_neg (by omega), if_pos hch, putc, if_neg (by omega)]

theorem vsnprintf_c {v : BitVec 32} (hout : out.length + 1 < 256) :
    miniVsnprintf 256 (37 :: 99 :: fmt) (.word v :: va) out =
      miniVsnprintf 256 fmt va (out ++ [UInt8.ofNat v.toNat]) := by
  rw [miniVsnprintf.eq_def]
  simp only
  rw [if_neg (by omega)]
  simp [convert, putc, show ¬ 256 ≤ out.length + 1 by omega]

theorem vsnprintf_d (hn : n < 2 ^ 31) (hout : out.length + 33 < 256) :
    miniVsnprintf 256 (37 :: 100 :: fmt) (.word (BitVec.ofNat 32 n) :: va) out =
      miniVsnprintf 256 fmt va (out ++ decimal n) := by
  have hlen := decimal_length n
  have htake : (decimal n).take (256 - out.length - 1) = decimal n :=
    List.take_of_length_le (by omega)
  rw [miniVsnprintf.eq_def]
  simp only
  rw [if_neg (by omega)]
  simp [convert, puts, miniItoa_decimal hn, htake]

end Format

end Ucas.Screen

import Mathlib.Data.Nat.Digits.Lemmas
import UcasOs.Libs.String

/-! The numbers of `libs/string.c`: `itoa` and `itohex` write the digits of a number into a buffer,
least significant first, and reverse the text in place; `atoi`, `atoh` and `htoi` read a text back.
An access outside the buffer gives nothing. -/

namespace Ucas.Libs
open Ucas.Lib
variable {m : Nat} {s t : Buffer m} {l : List UInt8}

def strlenFrom (s : Buffer m) (i : Nat) : Option Nat :=
  if i < m then if s.get i = 0 then some i else strlenFrom s (i + 1) else none
termination_by m - i

def strlen (s : Buffer m) : Option Nat := strlenFrom s 0

/-- The loop of `reverse`: `s[i]` and `s[j]` are exchanged until the two indices meet. -/
def swapLoop (s : Buffer m) (i j : Nat) : Buffer m :=
  if i < j then swapLoop ((s.set i (s.get j)).set j (s.get i)) (i + 1) (j - 1) else s
termination_by j - i

def reverse (s : Buffer m) : Option (Buffer m) := (strlen s).map fun len => swapLoop s 0 (len - 1)

/-- The loop of `itoa` and `itohex`: the digit of `n % base` is stored while `(n /= base) > 0`. The
index behind the last digit is returned as well. -/
def putDigits (base : Nat) (hbase : 1 < base) (digit : Nat → UInt8) (s : Buffer m) (n i : Nat) :
    Option (Buffer m × Nat) :=
  if i < m then
    if 0 < n / base then putDigits base hbase digit (s.set i (digit (n % base))) (n / base) (i + 1)
    else some (s.set i (digit (n % base)), i + 1)
  else none
termination_by n
decreasing_by exact Nat.div_lt_self (Nat.pos_of_div_pos ‹_›) hbase

/-- The body that `itoa` and `itohex` share: the digits, `s[i++] = 0`, `reverse(s)`. -/
def writeNumber (base : Nat) (hbase : 1 < base) (digit : Nat → UInt8) (n : UInt32) (s : Buffer m) :
    Option (Buffer m) := do
  let (s, i) ← putDigits base hbase digit s n.toNat 0
  if i < m then reverse (s.set i 0) else none

/-- `n % 10 + '0'` -/
def decimalDigit (d : Nat) : UInt8 := UInt8.ofNat (d + 48)

/-- `d + '0'` below ten, `d - 10 + 'a'` from there on. -/
def hexDigit (d : Nat) : UInt8 := if d < 10 then UInt8.ofNat (d + 48) else UInt8.ofNat (d - 10 + 97)

def itoa (n : UInt32) (s : Buffer m) : Option (Buffer m) :=
  writeNumber 10 (by decide) decimalDigit n s

def itohex (n : UInt32) (s : Buffer m) : Option (Buffer m) :=
  writeNumber 16 (by decide) hexDigit n s

/-- The loop that `atoi`, `atoh` and `htoi` share, from byte `i` on: as long as the character has a
value the accumulator, a word, becomes `n * base` plus that value. -/
def readFrom (base : UInt32) (value : UInt8 → Option UInt32) (s : Buffer m) (i : Nat) (n : UInt32) :
    Option UInt32 :=
  if i < m then
    match value (s.get i) with
    | some d => readFrom base value s (i + 1) (n * base + d)
    | none => some n
  else none
termination_by m - i

/-- `*s >= '0' && *s <= '9'` -/
def isDecimal (c : UInt8) : Bool := 48 ≤ c && c ≤ 57

/-- `*s >= 'a' && *s <= 'f'` -/
def isHexLetter (c : UInt8) : Bool := 97 ≤ c && c ≤ 102

def isHexChar (c : UInt8) : Bool := isDecimal c || isHexLetter c

def decimalValue (c : UInt8) : Option UInt32 := if isDecimal c then some (c - 48).toUInt32 else none

def atohValue (c : UInt8) : Option UInt32 :=
  if isDecimal c then some (c - 48).toUInt32 else if isHexLetter c then some (c - 97).toUInt32 else
    none

/-- The digit values of `htoi`: a letter counts `*s - 'a' + 10`. -/
def htoiValue (c : UInt8) : Option UInt32 :=
  if isDecimal c then some (c - 48).toUInt32 else if isHexLetter c then
    some ((c - 97).toUInt32 + 10) else none

/-- `atoi(s + o)` -/
def atoi (s : Buffer m) (o : Nat) : Option UInt32 := readFrom 10 decimalValue s o 0

/-- `atoh(s + o)` -/
def atoh (s : Buffer m) (o : Nat) : Option UInt32 := readFrom 16 atohValue s o 0

/-- `htoi(s + o)` -/
def htoi (s : Buffer m) (o : Nat) : Option UInt32 := readFrom 16 htoiValue s o 0

/-! ### Length and reversal -/

theorem strlenFrom_of_hasText {o : Nat} (h : s.HasText l o) (hl : 0 ∉ l) (hlen : o + l.length < m) :
    strlenFrom s o = some (o + l.length) := by
  induction l generalizing o with
  | nil =>
    have ho : o < m := hlen
    rw [strlenFrom, if_pos ho, if_pos ((Buffer.hasText_nil ho).mp h)]
    rfl
  | cons c l ih =>
    rw [List.length_cons] at hlen
    have ho : o < m := by omega
    rw [Buffer.hasText_cons ho] at h
    have hc : s.get o ≠ 0 := fun h0 => hl (by rw [← h0, h.1]; exact List.mem_cons_self)
    rw [strlenFrom, if_pos ho, if_neg hc, ih h.2 (fun h0 => hl (List.mem_cons_of_mem _ h0))
      (by omega),
      List.length_cons, Nat.add_right_comm, Nat.add_assoc]

theorem get_swapLoop {i j : Nat} (hj : i < j → j < m) (k : Nat) :
    (swapLoop s i j).get k = if i ≤ k ∧ k ≤ j then s.get (i + j - k) else s.get k := by
  fun_induction swapLoop s i j with
  | case1 s i j hlt ih =>
    have hjm := hj hlt
    rw [ih (by omega)]
    simp only [Buffer.get_set]
    obtain rfl | hki := eq_or_ne k i
    · rw [if_neg (by omega), if_neg (by omega), if_pos (by omega), if_pos (by omega)]
      congr 1
      omega
    · obtain rfl | hkj := eq_or_ne k j
      · rw [if_neg (by omega), if_pos (by omega), if_pos (by omega)]
        congr 1
        omega
      · by_cases hin : i ≤ k ∧ k ≤ j
        · rw [if_pos (by omega), if_neg (by omega), if_neg (by omega), if_pos hin]
          congr 1
          omega
        · rw [if_neg (by omega), if_neg (by omega), if_neg (by omega), if_neg hin]
  | case2 s i j hlt =>
    split_ifs with hin
    · congr 1
      omega
    · rfl

theorem get_swapLoop_zero {len : Nat} (hlen : len ≤ m) (k : Nat) :
    (swapLoop s 0 (len - 1)).get k = if k < len then s.get (len - 1 - k) else s.get k := by
  rw [get_swapLoop (by omega), Nat.zero_add]
  split_ifs with h1 h2
  · rfl
  · congr 1
    omega
  · omega
  · rfl

theorem exists_reverse (h : s.HasText l 0) (hl : 0 ∉ l) (hlen : l.length < m) :
    ∃ t, reverse s = some t ∧ t.HasText l.reverse 0 ∧ ∀ k, l.length ≤ k → t.get k = s.get k := by
  have hstrlen : strlen s = some (0 + l.length) := strlenFrom_of_hasText h hl (by omega)
  rw [Nat.zero_add] at hstrlen
  refine ⟨_, by rw [reverse, hstrlen]; rfl, fun k hk hlt => ?_, fun k hk => ?_⟩
  · rw [Nat.zero_add] at hlt ⊢
    rw [List.length_reverse] at hk
    rw [get_swapLoop_zero hlen.le]
    split_ifs with hin
    · have hat := h (l.length - 1 - k) (by omega) (by omega)
      rw [Nat.zero_add] at hat
      rw [hat, List.getD_reverse k hin]
    · have hat := h k hk (by omega)
      rw [Nat.zero_add] at hat
      rw [hat, List.getD_eq_default _ _ (by omega), List.getD_eq_default _ _
        (by rw [List.length_reverse]; omega)]
  · rw [get_swapLoop_zero hlen.le, if_neg (by omega)]

theorem exists_text (hnul : ∃ k < m, s.get k = 0) : ∃ l, s.HasText l 0 ∧ 0 ∉ l ∧ l.length < m := by
  obtain ⟨hlt, hzero⟩ := Nat.find_spec hnul
  refine ⟨(List.range (Nat.find hnul)).map s.get, fun k hk _ => ?_, fun hmem =>
    ?_, by simpa using hlt⟩
  · rw [List.length_map, List.length_range] at hk
    rw [Nat.zero_add]
    obtain hk | rfl := Nat.lt_or_eq_of_le hk
    · rw [List.getD_eq_getElem _ _ (by simpa using hk), List.getElem_map, List.getElem_range]
    · rw [hzero, List.getD_eq_default _ _ (by simp)]
  · obtain ⟨k, hk, h0⟩ := List.mem_map.mp hmem
    exact Nat.find_min hnul (List.mem_range.mp hk) ⟨(List.mem_range.mp hk).trans hlt, h0⟩

theorem reverse_reverse (h : s.HasText l 0) (hl : 0 ∉ l) (hlen : l.length < m)
    (ht : reverse s = some t) :
    reverse t = some s := by
  obtain ⟨t', ht', htext, hrest⟩ := exists_reverse h hl hlen
  obtain rfl : t' = t := Option.some.inj (ht'.symm.trans ht)
  obtain ⟨s', hs', htext', hrest'⟩ := exists_reverse htext (by rwa [List.mem_reverse])
    (by rwa [List.length_reverse])
  rw [List.reverse_reverse] at htext'
  rw [List.length_reverse] at hrest'
  rw [hs']
  congr 1
  refine Buffer.ext fun k hk => ?_
  by_cases hin : k < l.length
  · have hnew := htext' k hin.le (by omega)
    have hold := h k hin.le (by omega)
    rw [Nat.zero_add] at hnew hold
    rw [hnew, hold]
  · rw [hrest' k (by omega), hrest k (by omega)]

/-! ### Writing -/

def numeral (base n : Nat) : List Nat := if n = 0 then [0] else Nat.digits base n

theorem numeral_eq {base n : Nat} (hbase : 1 < base) :
    numeral base n = n % base :: if 0 < n / base then numeral base (n / base) else [] := by
  by_cases hn : n = 0
  · subst hn
    simp [numeral]
  · rw [numeral, if_neg hn, Nat.digits_def' hbase (Nat.pos_of_ne_zero hn)]
    split_ifs with hq
    · rw [numeral, if_neg hq.ne']
    · rw [Nat.eq_zero_of_not_pos hq, Nat.digits_zero]

theorem ofDigits_numeral (base n : Nat) : Nat.ofDigits base (numeral base n) = n := by
  by_cases hn : n = 0
  · simp [numeral, hn]
  · rw [numeral, if_neg hn, Nat.ofDigits_digits]

theorem lt_of_mem_numeral {base n d : Nat} (hbase : 1 < base) (hd : d ∈ numeral base n) :
    d < base := by
  by_cases hn : n = 0
  · rw [numeral, if_pos hn, List.mem_singleton] at hd
    omega
  · rw [numeral, if_neg hn] at hd
    exact Nat.digits_lt_base hbase hd

theorem getLast?_numeral {base n : Nat} (hzero : (numeral base n).getLast? = some 0) : n = 0 := by
  by_contra hn
  rw [numeral, if_neg hn, List.getLast?_eq_some_getLast (Nat.digits_ne_nil_iff_ne_zero.mpr
    hn)] at hzero
  exact Nat.getLast_digit_ne_zero base hn (Option.some.inj hzero)

theorem length_numeral_le {base n k : Nat} (hbase : 1 < base) (hk : 0 < k) (hn : n < base ^ k) :
    (numeral base n).length ≤ k := by
  by_cases h0 : n = 0
  · rw [numeral, if_pos h0]
    exact hk
  · rw [numeral, if_neg h0, Nat.digits_length_le_iff hbase]
    exact hn

theorem putDigits_eq {base : Nat} (hbase : 1 < base) (digit : Nat → UInt8) (n i : Nat)
    (hroom : i + (numeral base n).length ≤ m) :
    putDigits base hbase digit s n i =
      some (s.putBytes i ((numeral base n).map digit), i + (numeral base n).length) := by
  fun_induction putDigits base hbase digit s n i with
  | case1 s n i hi hq ih =>
    rw [numeral_eq hbase, if_pos hq] at hroom ⊢
    rw [List.length_cons] at hroom ⊢
    rw [ih (by omega), List.map_cons, Buffer.putBytes_cons hi, Nat.add_right_comm, Nat.add_assoc]
  | case2 s n i hi hq =>
    rw [numeral_eq hbase, if_neg hq, List.map_cons, Buffer.putBytes_cons hi, List.map_nil,
      Buffer.putBytes_nil]
    rfl
  | case3 s n i hi =>
    rw [numeral_eq hbase, List.length_cons] at hroom
    omega

theorem exists_writeNumber {base : Nat} (hbase : 1 < base) {digit : Nat → UInt8} {n : UInt32}
    (hdigit : ∀ d < base, digit d ≠ 0) (hroom : (numeral base n.toNat).length < m) :
    ∃ t, writeNumber base hbase digit n s = some t ∧
      t.HasText ((numeral base n.toNat).map digit).reverse 0 := by
  set l := (numeral base n.toNat).map digit with hl
  have hlen : l.length = (numeral base n.toNat).length := List.length_map _
  have hput := putDigits_eq (s := s) hbase digit n.toNat 0 (by omega)
  rw [Nat.zero_add, ← hl] at hput
  have htext : ((s.putBytes 0 l).set (numeral base n.toNat).length 0).HasText l 0 := by
    intro k hk hlt
    rw [Nat.zero_add] at hlt ⊢
    rw [Buffer.get_set, Buffer.get_putBytes _ _ _ hlt]
    split_ifs with h1 h2
    · rw [List.getD_eq_default _ _ (by omega)]
    · rfl
    · omega
  have hnul : (0 : UInt8) ∉ l := by
    intro hmem
    obtain ⟨d, hd, h0⟩ := List.mem_map.mp hmem
    exact hdigit d (lt_of_mem_numeral hbase hd) h0
  obtain ⟨t, ht, htext', -⟩ := exists_reverse htext hnul (by omega)
  refine ⟨t, ?_, htext'⟩
  rw [writeNumber, hput]
  simpa only [Option.bind_eq_bind, Option.bind_some, if_pos hroom] using ht

/-! ### Reading -/

def leadingDigits (value : UInt8 → Option UInt32) : List UInt8 → List UInt32
  | [] => []
  | c :: l =>
    match value c with
    | some d => d :: leadingDigits value l
    | none => []

theorem readFrom_eq {base : UInt32} {value : UInt8 → Option UInt32} {o : Nat}
    (h : ∀ k < l.length, s.get (o + k) = l.getD k 0) (hend : value (s.get (o + l.length)) = none)
    (hlen : o + l.length < m) (n : UInt32) :
    readFrom base value s o n = some ((leadingDigits value l).foldl (fun n d => n * base + d) n) :=
    by
  induction l generalizing o n with
  | nil =>
    rw [List.length_nil, Nat.add_zero] at hend
    rw [readFrom, if_pos (show o < m from hlen), hend]
    rfl
  | cons c l ih =>
    rw [List.length_cons] at hlen h hend
    have hc : s.get o = c := h 0 (Nat.succ_pos _)
    have htail : ∀ k < l.length, s.get (o + 1 + k) = l.getD k 0 := by
      intro k hk
      rw [Nat.add_assoc, Nat.add_comm 1 k]
      exact h (k + 1) (Nat.succ_lt_succ hk)
    rw [Nat.add_comm l.length 1, ← Nat.add_assoc] at hend hlen
    rw [readFrom, if_pos (by omega), hc, leadingDigits]
    cases hv : value c with
    | some d => exact ih htail hend hlen _
    | none => rfl

theorem readFrom_of_hasText {base : UInt32} {value : UInt8 → Option UInt32} {o : Nat}
    (hvalue : value 0 = none)
    (h : s.HasText l o) (hlen : o + l.length < m) (n : UInt32) :
    readFrom base value s o n = some ((leadingDigits value l).foldl (fun n d => n * base + d) n) :=
    by
  have hnul := h l.length le_rfl hlen
  rw [List.getD_eq_default _ _ le_rfl] at hnul
  exact readFrom_eq (fun k hk => h k hk.le (by omega)) (by rw [hnul, hvalue]) hlen n

theorem foldl_digits (base : Nat) (ds : List UInt32) :
    ds.foldl (fun n d => n * UInt32.ofNat base + d) 0 =
      UInt32.ofNat (Nat.ofDigits base (ds.reverse.map UInt32.toNat)) := by
  induction ds using List.reverseRecOn with
  | nil => rfl
  | append_singleton ds d ih =>
    rw [List.foldl_append, List.foldl_cons, List.foldl_nil, ih, List.reverse_append,
      List.reverse_singleton,
      List.singleton_append, List.map_cons, Nat.ofDigits_cons, UInt32.ofNat_add, UInt32.ofNat_mul,
        UInt32.ofNat_toNat,
      UInt32.add_comm, UInt32.mul_comm]

theorem leadingDigits_map {value : UInt8 → Option UInt32} {digit : Nat → UInt8} {val : Nat → Nat}
    {ds : List Nat}
    (h : ∀ d ∈ ds, value (digit d) = some (UInt32.ofNat (val d))) :
    leadingDigits value (ds.map digit) = ds.map fun d => UInt32.ofNat (val d) := by
  induction ds with
  | nil => rfl
  | cons d ds ih =>
    rw [List.map_cons, leadingDigits, h d List.mem_cons_self, List.map_cons,
      ← ih fun d' hd' => h d' (List.mem_cons_of_mem _ hd')]

theorem readFrom_numeral {base n : Nat} {value : UInt8 → Option UInt32} {digit : Nat → UInt8}
    {val : Nat → Nat}
    (hvalue : value 0 = none) (h : ∀ d ∈ numeral base n, value (digit d) = some
    (UInt32.ofNat (val d)))
    (hval : ∀ d ∈ numeral base n, val d < 2 ^ 32)
    (htext : t.HasText ((numeral base n).map digit).reverse 0)
    (hroom : (numeral base n).length < m) :
    readFrom (UInt32.ofNat base) value t 0 0 = some (UInt32.ofNat (Nat.ofDigits base
    ((numeral base n).map val))) := by
  rw [readFrom_of_hasText hvalue htext (by simpa using hroom), ← List.map_reverse,
    leadingDigits_map fun d hd => h d (List.mem_reverse.mp hd), foldl_digits, ← List.map_reverse,
      List.reverse_reverse,
    List.map_map]
  congr 3
  refine List.map_congr_left fun d hd => ?_
  exact UInt32.toNat_ofNat_of_lt' (hval d hd)

theorem decimalValue_decimalDigit :
    ∀ d < 10, decimalValue (decimalDigit d) = some (UInt32.ofNat d) := by
  decide

theorem htoiValue_hexDigit : ∀ d < 16, htoiValue (hexDigit d) = some (UInt32.ofNat d) := by decide

structure Prints (isDigit : UInt8 → Bool) (n : UInt32) (t : Buffer m) (l : List UInt8) : Prop where
  text : t.HasText l 0
  ends : l.length < m
  digits : ∀ c ∈ l, isDigit c
  leading : l.head? = some 48 → n = 0
  some_digit : l ≠ []

theorem Prints.of_numeral {base : Nat} (hbase : 1 < base) {isDigit : UInt8 → Bool}
    {digit : Nat → UInt8} {n : UInt32}
    (hdigit : ∀ d < base, isDigit (digit d)) (hzero : ∀ d < base, digit d = 48 → d = 0)
    (htext : t.HasText ((numeral base n.toNat).map digit).reverse 0)
    (hroom : (numeral base n.toNat).length < m) :
    Prints isDigit n t ((numeral base n.toNat).map digit).reverse where
  text := htext
  ends := by simpa using hroom
  digits c hc := by
    obtain ⟨d, hd, rfl⟩ := List.mem_map.mp (List.mem_reverse.mp hc)
    exact hdigit d (lt_of_mem_numeral hbase hd)
  leading h := by
    rw [List.head?_reverse, List.getLast?_map, Option.map_eq_some_iff] at h
    obtain ⟨d, hd, h48⟩ := h
    obtain rfl := hzero d (lt_of_mem_numeral hbase (List.mem_of_getLast? hd)) h48
    exact UInt32.toNat_inj.mp (getLast?_numeral hd)
  some_digit := by
    rw [numeral_eq hbase, Ne, List.reverse_eq_nil_iff, List.map_cons]
    exact List.cons_ne_nil _ _

theorem exists_printed {base : Nat} (hbase : 1 < base) {isDigit : UInt8 → Bool}
    {digit : Nat → UInt8}
    {value : UInt8 → Option UInt32} (hdigit : ∀ d < base, isDigit (digit d)) (hnul : ∀ d < base,
    digit d ≠ 0)
    (hzero : ∀ d < base, digit d = 48 → d = 0) (hvalue : value 0 = none)
    (h : ∀ d < base, value (digit d) = some (UInt32.ofNat d)) (hword : base < 2 ^ 32) (s : Buffer m)
    (n : UInt32)
    (hroom : (numeral base n.toNat).length < m) :
    ∃ t, writeNumber base hbase digit n s = some t ∧
      Prints isDigit n t ((numeral base n.toNat).map digit).reverse ∧
      readFrom (UInt32.ofNat base) value t 0 0 = some n := by
  obtain ⟨t, ht, htext⟩ := exists_writeNumber (s := s) hbase hnul hroom
  have hlt : ∀ d ∈ numeral base n.toNat, d < base := fun d hd => lt_of_mem_numeral hbase hd
  have hread := readFrom_numeral hvalue (fun d hd => h d (hlt d hd)) (fun d hd => (hlt d hd).trans
    hword) htext hroom
  rw [show (fun d : Nat => d) = id from rfl, List.map_id, ofDigits_numeral,
    UInt32.ofNat_toNat] at hread
  exact ⟨t, ht, Prints.of_numeral hbase hdigit hzero htext hroom, hread⟩

theorem exists_itoa (s : Buffer m) (n : UInt32) (hm : 11 ≤ m) :
    ∃ t, itoa n s = some t ∧ Prints isDecimal n t ((numeral 10 n.toNat).map decimalDigit).reverse ∧
      atoi t 0 = some n := by
  have hlt := n.toNat_lt
  have hlen : (numeral 10 n.toNat).length ≤ 10 := length_numeral_le (by decide) (by decide)
    (by omega)
  exact exists_printed (by decide) (by decide) (by decide) (by decide) rfl decimalValue_decimalDigit
    (by decide) s n
    (by omega)

theorem length_numeral_sixteen (n : UInt32) : (numeral 16 n.toNat).length ≤ 8 := by
  have hlt := n.toNat_lt
  exact length_numeral_le (by decide) (by decide) (by omega)

theorem exists_itohex (s : Buffer m) (n : UInt32) (hm : 9 ≤ m) :
    ∃ t, itohex n s = some t ∧ Prints isHexChar n t ((numeral 16 n.toNat).map hexDigit).reverse ∧
      htoi t 0 = some n :=
  exists_printed (by decide) (by decide) (by decide) (by decide) rfl htoiValue_hexDigit (by decide)
    s n
    ((length_numeral_sixteen n).trans_lt hm)

theorem number_round_trip :
    (∀ {m : Nat} (s : Buffer m) (n : UInt32), 11 ≤ m →
      ∃ t l, itoa n s = some t ∧ Prints isDecimal n t l ∧ atoi t 0 = some n) ∧
    (∀ {m : Nat} (s : Buffer m) (n : UInt32), 9 ≤ m →
      ∃ t l, itohex n s = some t ∧ Prints isHexChar n t l ∧ htoi t 0 = some n) ∧
    ∀ {m : Nat} (s : Buffer m), (∃ k < m, s.get k = 0) →
      ∃ len t, strlen s = some len ∧ reverse s = some t ∧ strlen t = some len ∧
      reverse t = some s := by
  refine ⟨fun {m} s n hm => ?_, fun {m} s n hm => ?_, fun {m} s hnul => ?_⟩
  · obtain ⟨t, ht, hprints, hread⟩ := exists_itoa s n hm
    exact ⟨t, _, ht, hprints, hread⟩
  · obtain ⟨t, ht, hprints, hread⟩ := exists_itohex s n hm
    exact ⟨t, _, ht, hprints, hread⟩
  · obtain ⟨l, htext, hl, hlen⟩ := exists_text hnul
    obtain ⟨t, ht, htext', -⟩ := exists_reverse htext hl hlen
    refine ⟨0 + l.length, t, strlenFrom_of_hasText htext hl (by omega), ht, ?_, reverse_reverse
      htext hl hlen ht⟩
    rw [← List.length_reverse]
    exact strlenFrom_of_hasText htext' (by rwa [List.mem_reverse])
      (by rw [List.length_reverse]; omega)

def abcText : Buffer 12 := Buffer.zero.putBytes 0 [97, 98, 99]

theorem number_round_trip_twelve :
    (∃ (t : Buffer 12) (l : List UInt8), itoa 0xc0ffee abcText = some t ∧
      Prints isDecimal 0xc0ffee t l ∧ atoi t 0 = some 0xc0ffee) ∧
    (∃ (t : Buffer 12) (l : List UInt8), itohex 0xc0ffee abcText = some t ∧
      Prints isHexChar 0xc0ffee t l ∧ htoi t 0 = some 0xc0ffee) ∧
    ∃ t : Buffer 12, strlen abcText = some 3 ∧ reverse abcText = some t ∧ t ≠ abcText ∧
      strlen t = some 3 ∧ reverse t = some abcText := by
  refine ⟨number_round_trip.1 _ _ (by decide), number_round_trip.2.1 _ _ (by decide), ?_⟩
  obtain ⟨len, t, hlen, ht, hlen', hback⟩ :=
    number_round_trip.2.2 abcText ⟨3, by decide, by decide +kernel⟩
  have hstrlen : strlen abcText = some 3 := by decide +kernel
  obtain rfl : len = 3 := Option.some.inj (hlen.symm.trans hstrlen)
  refine ⟨t, hlen, ht, fun heq => ?_, hlen', hback⟩
  have hfirst : (reverse abcText).map (Buffer.get · 0) = some 99 := by decide +kernel
  rw [ht, heq] at hfirst
  exact absurd hfirst (by decide +kernel)

end Ucas.Libs

import Mathlib.Data.List.TakeWhile
import UcasOs.Libs.Number

/-! `do_scanf` of `libs/scanf.c`, and `atoh`, the reader of hexadecimal numbers it uses. `atoh` and
`htoi` take the same characters for digits and give the letters different values, so everything is a
comparison of two lists of digits over the same text. -/

namespace Ucas.Libs
open Ucas.Lib
variable {m : Nat} {s t : Buffer m} {l : List UInt8}

def hexRun (l : List UInt8) : List UInt8 := l.takeWhile isHexChar

def digitValue (value : UInt8 → Option UInt32) (c : UInt8) : Nat := ((value c).getD 0).toNat

/-- The number of a text of hexadecimal digits; with the values of `htoi` it is the number the text
stands for. -/
def hexNumber (value : UInt8 → Option UInt32) (l : List UInt8) : Nat :=
  Nat.ofDigits 16 ((hexRun l).reverse.map (digitValue value))

theorem map_leadingDigits {value : UInt8 → Option UInt32} (h : ∀ c, (value c).isSome = isHexChar c)
    (l : List UInt8) :
    (leadingDigits value l).map UInt32.toNat = (hexRun l).map (digitValue value) := by
  induction l with
  | nil => rfl
  | cons c l ih =>
    have hc := h c
    cases hv : value c with
    | some d =>
      rw [hv, Option.isSome_some] at hc
      rw [leadingDigits, hv, List.map_cons, ih, hexRun, hexRun, List.takeWhile_cons_of_pos hc.symm,
        List.map_cons,
        digitValue, hv]
      rfl
    | none =>
      rw [hv, Option.isSome_none] at hc
      rw [leadingDigits, hv, hexRun, List.takeWhile_cons_of_neg (by rw [← hc]; decide)]
      rfl

theorem foldl_leadingDigits {value : UInt8 → Option UInt32}
    (h : ∀ c, (value c).isSome = isHexChar c)
    (l : List UInt8) :
    (leadingDigits value l).foldl (fun n d => n * 16 + d) 0 = UInt32.ofNat (hexNumber value l) := by
  rw [show (16 : UInt32) = UInt32.ofNat 16 from rfl, foldl_digits, List.map_reverse,
    map_leadingDigits h,
    ← List.map_reverse]
  rfl

theorem isSome_atohValue (c : UInt8) : (atohValue c).isSome = isHexChar c := by
  rw [atohValue, isHexChar]
  cases isDecimal c <;> cases isHexLetter c <;> rfl

theorem isSome_htoiValue (c : UInt8) : (htoiValue c).isSome = isHexChar c := by
  rw [htoiValue, isHexChar]
  cases isDecimal c <;> cases isHexLetter c <;> rfl

theorem digitValue_htoiValue (c : UInt8) :
    digitValue htoiValue c = digitValue atohValue c + (if isHexLetter c then 10 else 0) ∧
      digitValue htoiValue c < 16 := by
  have h : ∀ k : Fin 256, digitValue htoiValue (UInt8.ofNat k) =
      digitValue atohValue (UInt8.ofNat k) + (if isHexLetter (UInt8.ofNat k) then 10 else 0) ∧
      digitValue htoiValue (UInt8.ofNat k) < 16 := by decide +kernel
  have hc := h ⟨c.toNat, c.toNat_lt⟩
  rwa [UInt8.ofNat_toNat] at hc

theorem digitValue_eq_iff (c : UInt8) :
    digitValue atohValue c = digitValue htoiValue c ↔ isHexLetter c = false := by
  rw [(digitValue_htoiValue c).1]
  cases isHexLetter c <;> simp

theorem digitValue_le (c : UInt8) : digitValue atohValue c ≤ digitValue htoiValue c := by
  rw [(digitValue_htoiValue c).1]
  exact Nat.le_add_right _ _

theorem lt_of_mem_map_digitValue {value : UInt8 → Option UInt32} (h : ∀ c, digitValue value c < 16)
    (cs : List UInt8) :
    ∀ d ∈ cs.map (digitValue value), d < 16 := by
  intro d hd
  obtain ⟨c, -, rfl⟩ := List.mem_map.mp hd
  exact h c

theorem digitValue_htoiValue_lt (c : UInt8) : digitValue htoiValue c < 16 :=
  (digitValue_htoiValue c).2

theorem digitValue_atohValue_lt (c : UInt8) : digitValue atohValue c < 16 :=
  (digitValue_le c).trans_lt (digitValue_htoiValue_lt c)

theorem ofDigits_map_inj {cs : List UInt8} :
    Nat.ofDigits 16 (cs.map (digitValue atohValue)) = Nat.ofDigits 16
    (cs.map (digitValue htoiValue)) ↔
      ∀ c ∈ cs, isHexLetter c = false := by
  constructor
  · intro h c hc
    have hmap := Nat.ofDigits_inj_of_len_eq (by decide) (by rw [List.length_map, List.length_map])
      (lt_of_mem_map_digitValue digitValue_atohValue_lt cs) (lt_of_mem_map_digitValue
        digitValue_htoiValue_lt cs) h
    exact (digitValue_eq_iff c).mp (List.map_inj_left.mp hmap c hc)
  · intro h
    rw [List.map_congr_left fun c hc => (digitValue_eq_iff c).mpr (h c hc)]

theorem hexNumber_mod {value : UInt8 → Option UInt32} (h : ∀ c, digitValue value c < 16)
    (l : List UInt8) :
    hexNumber value l % 2 ^ 32 = Nat.ofDigits 16 (((hexRun l).reverse.take 8).map
    (digitValue value)) := by
  rw [List.map_take]
  exact Nat.ofDigits_mod_pow_eq_ofDigits_take 8 (by decide) _ (lt_of_mem_map_digitValue h _)

theorem ofNat_hexNumber_inj :
    UInt32.ofNat (hexNumber atohValue l) = UInt32.ofNat (hexNumber htoiValue l) ↔
      ∀ c ∈ (hexRun l).reverse.take 8, isHexLetter c = false := by
  rw [← ofDigits_map_inj, ← UInt32.toNat_inj, UInt32.toNat_ofNat', UInt32.toNat_ofNat',
    hexNumber_mod digitValue_atohValue_lt, hexNumber_mod digitValue_htoiValue_lt]

theorem atoh_of_hasText (h : s.HasText l 0) (hlen : l.length < m) :
    atoh s 0 = some (UInt32.ofNat (hexNumber atohValue l)) := by
  rw [atoh, readFrom_of_hasText rfl h (by omega), foldl_leadingDigits isSome_atohValue]

theorem htoi_of_hasText (h : s.HasText l 0) (hlen : l.length < m) :
    htoi s 0 = some (UInt32.ofNat (hexNumber htoiValue l)) := by
  rw [htoi, readFrom_of_hasText rfl h (by omega), foldl_leadingDigits isSome_htoiValue]

theorem atoh_eq_htoi_iff (h : s.HasText l 0) (hlen : l.length < m) :
    atoh s 0 = htoi s 0 ↔ ∀ c ∈ (hexRun l).reverse.take 8, isHexLetter c = false := by
  rw [atoh_of_hasText h hlen, htoi_of_hasText h hlen, Option.some_inj, ofNat_hexNumber_inj]

theorem isHexLetter_hexDigit : ∀ d < 16, isHexLetter (hexDigit d) = false ↔ d < 10 := by decide

theorem forall_mem_numeral {n : Nat} :
    (∀ d ∈ numeral 16 n, d < 10) ↔ ∀ d ∈ Nat.digits 16 n, d < 10 := by
  by_cases hn : n = 0
  · simp [numeral, hn]
  · rw [numeral, if_neg hn]

theorem atoh_itohex_iff (s : Buffer m) (n : UInt32) (hm : 9 ≤ m) :
    (∃ t, itohex n s = some t ∧ atoh t 0 = some n) ↔ ∀ d ∈ Nat.digits 16 n.toNat, d < 10 := by
  obtain ⟨t, ht, hprints, hread⟩ := exists_itohex s n hm
  set l := ((numeral 16 n.toNat).map hexDigit).reverse with hl
  have hrun : (hexRun l).reverse.take 8 = (numeral 16 n.toNat).map hexDigit := by
    rw [hexRun, List.takeWhile_eq_self_iff.mpr hprints.digits, hl, List.reverse_reverse,
      List.take_of_length_le (by rw [List.length_map]; exact length_numeral_sixteen n)]
  have hagree := atoh_eq_htoi_iff hprints.text hprints.ends
  rw [hread, hrun, List.forall_mem_map] at hagree
  rw [← forall_mem_numeral]
  constructor
  · rintro ⟨t', ht', h⟩ d hd
    obtain rfl : t = t' := Option.some.inj (ht.symm.trans ht')
    exact (isHexLetter_hexDigit d (lt_of_mem_numeral (by decide) hd)).mp (hagree.mp h d hd)
  · intro h
    refine ⟨t, ht, hagree.mpr fun d hd => ?_⟩
    exact (isHexLetter_hexDigit d (lt_of_mem_numeral (by decide) hd)).mpr (h d hd)

/-! ### `do_scanf` -/

abbrev inputBufferMaxLength : Nat := 1000

structure Scan where
  buffer : Buffer inputBufferMaxLength
  index : Nat
  pointer : Nat
  mem : UInt32

/-- `*(buffer + i)` -/
def readByte (b : Buffer m) (i : Nat) : Option UInt8 := if i < m then some (b.get i) else none

/-- `*(buffer + pointer) == '0' && *(buffer + pointer + 1) == 'x' && (k = atoh(buffer + pointer +
2)) >= 0 && k <= VM_SIZE`, with `k` when it holds. -/
def scanNumber (b : Buffer m) (pointer : Nat) : Option (Option UInt32) := do
  if (← readByte b pointer) ≠ 48 then return none
  if (← readByte b (pointer + 1)) ≠ 120 then return none
  let k ← atoh b (pointer + 2)
  return if k.toNat < 2 ^ 31 ∧ k ≤ 0x80000000 then some k else none

def doScanf (s : Scan) (ch : UInt8) : Option Scan :=
  if s.index < inputBufferMaxLength then
    let s := { s with buffer := s.buffer.set s.index ch, index := s.index + 1 }
    if ch = 13 then do
      let k ← scanNumber s.buffer s.pointer
      return { s with mem := k.getD s.mem, pointer := s.index }
    else some s
  else none

def scanText (s : Scan) (l : List UInt8) : Option Scan := l.foldlM doScanf s

theorem doScanf_of_ne {s : Scan} {ch : UInt8} (hroom : s.index < inputBufferMaxLength)
    (hne : ch ≠ 13) :
    doScanf s ch = some { s with buffer := s.buffer.set s.index ch, index := s.index + 1 } := by
  rw [doScanf, if_pos hroom, if_neg hne]

theorem scanText_eq {s : Scan} (hl : 13 ∉ l) (hroom : s.index + l.length ≤ inputBufferMaxLength) :
    scanText s l = some
    { s with buffer := s.buffer.putBytes s.index l, index := s.index + l.length } := by
  induction l generalizing s with
  | nil =>
    rw [Buffer.putBytes_nil]
    rfl
  | cons c l ih =>
    rw [List.length_cons] at hroom
    rw [List.mem_cons, not_or] at hl
    have hlt : s.index < inputBufferMaxLength := by omega
    rw [scanText, List.foldlM_cons, doScanf_of_ne hlt (Ne.symm hl.1), Buffer.putBytes_cons hlt]
    refine (ih hl.2 (by dsimp only; omega)).trans ?_
    rw [List.length_cons, Nat.add_assoc, Nat.add_comm 1]

theorem index_of_doScanf {s s' : Scan} {ch : UInt8} (h : doScanf s ch = some s') :
    s.index < inputBufferMaxLength ∧ s'.index = s.index + 1 := by
  rw [doScanf] at h
  split_ifs at h with hroom hret
  · obtain ⟨k, -, hs'⟩ := Option.bind_eq_some_iff.mp h
    obtain rfl := Option.some.inj hs'
    exact ⟨hroom, rfl⟩
  · obtain rfl := Option.some.inj h
    exact ⟨hroom, rfl⟩

theorem scanText_eq_none {s : Scan} (hl : l ≠ [])
    (hroom : inputBufferMaxLength < s.index + l.length) :
    scanText s l = none := by
  induction l generalizing s with
  | nil => exact absurd rfl hl
  | cons c l ih =>
    rw [scanText, List.foldlM_cons]
    cases hc : doScanf s c with
    | none => rfl
    | some s' =>
      obtain ⟨hlt, hindex⟩ := index_of_doScanf hc
      rw [List.length_cons] at hroom
      refine ih ?_ (by omega)
      rintro rfl
      rw [List.length_nil] at hroom
      omega

def hexLine (ds : List UInt8) : List UInt8 := 48 :: 120 :: ds ++ [13]

theorem hexRun_self {ds : List UInt8} (hds : ∀ c ∈ ds, isHexChar c) : hexRun ds = ds :=
  List.takeWhile_eq_self_iff.mpr hds

theorem get_hexLine {b : Buffer m} {o : Nat} {ds : List UInt8} (hroom : o + (hexLine ds).length ≤ m)
    {k : Nat}
    (hk : k < (hexLine ds).length) :
    (b.putBytes o (hexLine ds)).get (o + k) = (hexLine ds).getD k 0 := by
  rw [Buffer.get_putBytes _ _ _ (by omega), if_pos (by omega), Nat.add_sub_cancel_left]

theorem atoh_hexLine {b : Buffer m} {o : Nat} {ds : List UInt8}
    (hroom : o + (hexLine ds).length ≤ m) :
    atoh (b.putBytes o (hexLine ds)) (o + 2) = some (UInt32.ofNat (hexNumber atohValue ds)) := by
  have hlen : (hexLine ds).length = ds.length + 3 := by simp [hexLine]
  have hget : ∀ k ≤ ds.length, (b.putBytes o (hexLine ds)).get (o + 2 + k) = (ds ++ [13]).getD k
      0 := by
    intro k hk
    rw [Nat.add_assoc, get_hexLine hroom (by omega), Nat.add_comm 2]
    rfl
  have hdigit : ∀ k < ds.length, (b.putBytes o (hexLine ds)).get (o + 2 + k) = ds.getD k 0 := by
    intro k hk
    rw [hget k hk.le, List.getD_append _ _ _ _ hk]
  have hend : atohValue ((b.putBytes o (hexLine ds)).get (o + 2 + ds.length)) = none := by
    rw [hget _ le_rfl, List.getD_append_right _ _ _ _ le_rfl, Nat.sub_self]
    rfl
  rw [atoh, readFrom_eq hdigit hend (by omega), foldl_leadingDigits isSome_atohValue]

theorem scanNumber_eq {b : Buffer m} {pointer : Nat} {k : UInt32} (hlt : pointer + 1 < m)
    (h0 : b.get pointer = 48)
    (h1 : b.get (pointer + 1) = 120) (hk : atoh b (pointer + 2) = some k)
    (hsmall : k.toNat < 2 ^ 31) :
    scanNumber b pointer = some (some k) := by
  have hle : k ≤ 0x80000000 := UInt32.le_iff_toNat_le.mpr hsmall.le
  have hboth : k.toNat < 2 ^ 31 ∧ k ≤ 0x80000000 := ⟨hsmall, hle⟩
  rw [scanNumber, readByte, readByte, if_pos hlt, if_pos (Nat.lt_of_succ_lt hlt), h0, h1, hk]
  simp only [Option.bind_eq_bind, Option.bind_some, ne_eq, not_true_eq_false, if_false,
    if_pos hboth]
  rfl

theorem scanText_hexLine {s : Scan} {ds : List UInt8} (hline : s.pointer = s.index)
    (hds : ∀ c ∈ ds, isHexChar c)
    (hroom : s.index + (hexLine ds).length ≤ inputBufferMaxLength)
    (hsmall : hexNumber atohValue ds < 2 ^ 31) :
    ∃ s', scanText s (hexLine ds) = some s' ∧ s'.mem = UInt32.ofNat (hexNumber atohValue ds) := by
  set l := 48 :: 120 :: ds with hl
  have hlen : (hexLine ds).length = l.length + 1 := List.length_append
  have hne : 13 ∉ l := by
    intro hmem
    rw [hl, List.mem_cons, List.mem_cons] at hmem
    obtain h | h | h := hmem
    · exact absurd h (by decide)
    · exact absurd h (by decide)
    · exact absurd (hds 13 h) (by decide)
  have hlast : s.index + l.length < inputBufferMaxLength := by omega
  set b := s.buffer.putBytes s.index (hexLine ds) with hb
  have hscan : scanNumber b s.pointer = some (some (UInt32.ofNat (hexNumber atohValue ds))) := by
    have h0 : b.get (s.index + 0) = 48 := get_hexLine hroom (by omega)
    have h1 : b.get (s.index + 1) = 120 :=
      get_hexLine hroom (by rw [hlen, hl, List.length_cons]; omega)
    have hnat : (UInt32.ofNat (hexNumber atohValue ds)).toNat = hexNumber atohValue ds :=
      UInt32.toNat_ofNat_of_lt' (hsmall.trans (by decide))
    rw [hline]
    rw [hl, List.length_cons, List.length_cons] at hlast
    exact scanNumber_eq (by omega) h0 h1 (atoh_hexLine hroom) (by rwa [hnat])
  have hret : doScanf { s with buffer := s.buffer.putBytes s.index l, index := s.index + l.length }
    13 =
      some ⟨b, s.index + l.length + 1, s.index + l.length + 1, UInt32.ofNat (hexNumber atohValue
          ds)⟩ := by
    rw [doScanf, if_pos hlast]
    dsimp only
    rw [Buffer.set_putBytes hlast, show s.buffer.putBytes s.index (l ++ [13]) = b from rfl, hscan]
    rfl
  refine ⟨⟨b, s.index + l.length + 1, s.index + l.length + 1, UInt32.ofNat (hexNumber atohValue
    ds)⟩, ?_, rfl⟩
  · rw [scanText, hexLine, List.foldlM_append, ← hl, ← scanText, scanText_eq hne hlast.le,
      Option.bind_eq_bind,
      Option.bind_some, List.foldlM_cons, hret]
    rfl

theorem ofDigits_map_le {cs : List UInt8} :
    Nat.ofDigits 16 (cs.map (digitValue atohValue)) ≤ Nat.ofDigits 16
    (cs.map (digitValue htoiValue)) := by
  induction cs with
  | nil => exact le_rfl
  | cons c cs ih =>
    rw [List.map_cons, List.map_cons, Nat.ofDigits_cons, Nat.ofDigits_cons]
    exact Nat.add_le_add (digitValue_le c) (Nat.mul_le_mul_left _ ih)

theorem scan_stores_iff {s : Scan} {ds : List UInt8} (hline : s.pointer = s.index)
    (hds : ∀ c ∈ ds, isHexChar c)
    (hsmall : hexNumber htoiValue ds ≤ 0x7fffffff) :
    (∃ s', scanText s (hexLine ds) = some s' ∧ s'.mem.toNat = hexNumber htoiValue ds) ↔
      (∀ c ∈ ds, isHexLetter c = false) ∧ s.index + (hexLine ds).length ≤ inputBufferMaxLength := by
  have hle : hexNumber atohValue ds ≤ hexNumber htoiValue ds := ofDigits_map_le
  have hsame : hexNumber atohValue ds = hexNumber htoiValue ds ↔ ∀ c ∈ ds, isHexLetter c = false :=
      by
    rw [hexNumber, hexNumber, ofDigits_map_inj, hexRun_self hds]
    simp only [List.mem_reverse]
  by_cases hroom : s.index + (hexLine ds).length ≤ inputBufferMaxLength
  · obtain ⟨s', hs', hmem⟩ := scanText_hexLine hline hds hroom (by omega)
    have hnat : s'.mem.toNat = hexNumber atohValue ds := by
      rw [hmem]
      exact UInt32.toNat_ofNat_of_lt' (show _ < 4294967296 by omega)
    simp only [hs', Option.some_inj, exists_eq_left', hnat, hsame, hroom, and_true]
  · have hnone : scanText s (hexLine ds) = none :=
      scanText_eq_none (by simp [hexLine]) (by omega)
    simp [hnone, hroom]

theorem hex_input_iff {m k : Nat} (s : Buffer m) (n : UInt32) (hm : 9 ≤ m)
    (t : Buffer k) (l : List UInt8) (htext : t.HasText l 0) (hlen : l.length < k)
    (scan : Scan) (ds : List UInt8) (hline : scan.pointer = scan.index)
    (hds : ∀ c ∈ ds, isHexChar c) (hsmall : hexNumber htoiValue ds ≤ 0x7fffffff) :
    ((∃ t, itohex n s = some t ∧ atoh t 0 = some n) ↔ ∀ d ∈ Nat.digits 16 n.toNat, d < 10) ∧
    (atoh t 0 = htoi t 0 ↔ ∀ c ∈ (hexRun l).reverse.take 8, isHexLetter c = false) ∧
    ((∃ scan', scanText scan (hexLine ds) = some scan' ∧ scan'.mem.toNat = hexNumber htoiValue ds) ↔
      (∀ c ∈ ds, isHexLetter c = false) ∧ scan.index + (hexLine ds).length ≤
      inputBufferMaxLength) :=
  ⟨atoh_itohex_iff s n hm, atoh_eq_htoi_iff htext hlen, scan_stores_iff hline hds hsmall⟩

def firstLine : Scan := ⟨Buffer.zero, 0, 0, 0⟩

theorem hex_input_sixteen :
    (∃ t : Buffer 9, itohex 16 Buffer.zero = some t ∧ atoh t 0 = some 16) ∧
    atoh ((Buffer.zero : Buffer 9).putBytes 0 [49, 48, 0]) 0 = htoi
    ((Buffer.zero : Buffer 9).putBytes 0 [49, 48, 0]) 0 ∧
    ∃ s', scanText firstLine (hexLine [49, 48]) = some s' ∧ s'.mem.toNat = 16 := by
  have hhex : ∀ c ∈ ([49, 48] : List UInt8), isHexChar c :=
    List.forall_mem_cons.mpr ⟨rfl, List.forall_mem_singleton.mpr rfl⟩
  have hplain : ∀ c ∈ ([49, 48] : List UInt8), isHexLetter c = false :=
    List.forall_mem_cons.mpr ⟨rfl, List.forall_mem_singleton.mpr rfl⟩
  obtain ⟨hprint, htext, hscan⟩ := hex_input_iff (.zero : Buffer 9) 16 le_rfl _ [49, 48]
    (Buffer.hasText_putBytes (.zero : Buffer 9) [49, 48] 0) (by decide) firstLine [49, 48] rfl hhex
    (by decide)
  exact ⟨hprint.mpr (by decide), htext.mpr fun c hc => hplain c (List.mem_reverse.mp hc), hscan.mpr
    ⟨hplain, by decide⟩⟩

theorem atoh_itohex_ten : ∃ t : Buffer 9, itohex 10 Buffer.zero = some t ∧ atoh t 0 = some 0 := by
  obtain ⟨t, ht, hprints, -⟩ := exists_itohex (Buffer.zero : Buffer 9) 10 le_rfl
  refine ⟨t, ht, (atoh_of_hasText hprints.text hprints.ends).trans ?_⟩
  have hdigits : numeral 16 (10 : UInt32).toNat = [10] := by
    rw [numeral_eq (by decide)]
    rfl
  rw [hdigits]
  decide

end Ucas.Libs

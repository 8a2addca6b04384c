import Mathlib.Data.Finset.Card
import Mathlib.Data.Nat.Bitwise
import Mathlib.Order.Interval.Finset.Nat
import UcasOs.Lib.Buffer

/-! Bitmaps kept in byte buffers, the least clear bit of a bitmap, and how the number of clear bits
changes when one bit does. -/

namespace Ucas.Lib

namespace Buffer
variable {n : Nat}

def bit (b : Buffer n) (i : Nat) : Bool := (b.get (i / 8)).toNat.testBit (i % 8)

def setBit (b : Buffer n) (i : Nat) : Buffer n :=
  b.set (i / 8) (b.get (i / 8) ||| UInt8.ofNat (2 ^ (i % 8)))

def clearBit (b : Buffer n) (i : Nat) : Buffer n :=
  b.set (i / 8) (b.get (i / 8) &&& ~~~UInt8.ofNat (2 ^ (i % 8)))

theorem bit_of_le {b : Buffer n} {i : Nat} (h : 8 * n ≤ i) : b.bit i = false := by
  rw [bit, get_of_le (by omega)]
  simp

@[simp] theorem bit_zero (i : Nat) : (zero : Buffer n).bit i = false := by simp [bit]

theorem toNat_ofNat_two_pow {k : Nat} (h : k < 8) : (UInt8.ofNat (2 ^ k)).toNat = 2 ^ k := by
  rw [UInt8.toNat_ofNat', Nat.mod_eq_of_lt (Nat.pow_lt_pow_right (by omega) h)]

theorem bit_setBit (b : Buffer n) {i : Nat} (j : Nat) (h : i < 8 * n) :
    (b.setBit i).bit j = (decide (j = i) || b.bit j) := by
  unfold bit setBit
  rw [get_set]
  by_cases hbyte : j / 8 = i / 8
  · rw [if_pos ⟨hbyte, by omega⟩, UInt8.toNat_or, Nat.testBit_or, toNat_ofNat_two_pow (by omega),
      Nat.testBit_two_pow, hbyte, Bool.or_comm]
    congr 2
    simp only [eq_iff_iff]
    omega
  · rw [if_neg (by tauto), decide_eq_false (by rintro rfl; exact hbyte rfl), Bool.false_or]

theorem update_eq_setBit {q m : Nat} {b : Buffer n} {f : Nat → Bool} (hq : q < 8 * n)
    (h : ∀ k, k < m → f k = b.bit k) :
    ∀ k, k < m → Function.update f q true k = (b.setBit q).bit k := by
  intro k hk
  rw [bit_setBit _ _ hq, ← h k hk]
  by_cases hkq : k = q <;> simp [hkq]

theorem testBit_complement (x : UInt8) {k : Nat} (h : k < 8) :
    (~~~x).toNat.testBit k = !x.toNat.testBit k := by
  have hx := x.toNat_lt
  have hval : (~~~x).toNat = 2 ^ 8 - (x.toNat + 1) := by
    rw [UInt8.toNat_not]
    simp only [UInt8.size, Nat.reducePow]
    omega
  rw [hval, Nat.testBit_two_pow_sub_succ (by simpa using hx), decide_eq_true h, Bool.true_and]

theorem bit_clearBit (b : Buffer n) {i : Nat} (j : Nat) (h : i < 8 * n) :
    (b.clearBit i).bit j = (decide (j ≠ i) && b.bit j) := by
  unfold bit clearBit
  rw [get_set]
  by_cases hbyte : j / 8 = i / 8
  · rw [if_pos ⟨hbyte, by omega⟩, UInt8.toNat_and, Nat.testBit_and, hbyte, Bool.and_comm,
      testBit_complement _ (by omega), toNat_ofNat_two_pow (by omega), Nat.testBit_two_pow,
        ← decide_not]
    congr 2
    simp only [eq_iff_iff]
    omega
  · rw [if_neg (by tauto), decide_eq_true (by rintro rfl; exact hbyte rfl), Bool.true_and]

theorem ext_bits {a b : Buffer n} (h : ∀ k, k < 8 * n → a.bit k = b.bit k) : a = b := by
  refine Buffer.ext fun i hi => UInt8.toNat_inj.mp (Nat.eq_of_testBit_eq fun k => ?_)
  by_cases hk : k < 8
  · have hbit := h (8 * i + k) (by omega)
    rwa [bit, bit, show (8 * i + k) / 8 = i by omega, show (8 * i + k) % 8 = k by omega] at hbit
  · have hle : 2 ^ 8 ≤ 2 ^ k := Nat.pow_le_pow_right (by omega) (by omega)
    rw [Nat.testBit_lt_two_pow (lt_of_lt_of_le (a.get i).toNat_lt hle),
      Nat.testBit_lt_two_pow (lt_of_lt_of_le (b.get i).toNat_lt hle)]

theorem exists_clear_of_ne {x : UInt8} (h : x ≠ 0xff) : ∃ k, k < 8 ∧ x.toNat.testBit k = false := by
  by_contra hall
  push Not at hall
  apply h
  apply UInt8.toNat_inj.mp
  apply Nat.eq_of_testBit_eq
  intro k
  by_cases hk : k < 8
  · rw [eq_true_of_ne_false (hall k hk)]
    obtain rfl | rfl | rfl | rfl | rfl | rfl | rfl | rfl :
      k = 0 ∨ k = 1 ∨ k = 2 ∨ k = 3 ∨ k = 4 ∨ k = 5 ∨ k = 6 ∨ k = 7 := by omega
    all_goals rfl
  · have hlt : ∀ y : UInt8, y.toNat < 2 ^ k := fun y =>
      lt_of_lt_of_le y.toNat_lt (Nat.pow_le_pow_right (by omega) (Nat.not_lt.mp hk))
    rw [Nat.testBit_lt_two_pow (hlt _), Nat.testBit_lt_two_pow (hlt _)]

theorem bit_of_byte_full {b : Buffer n} {i : Nat} (h : b.get (i / 8) = 0xff) : b.bit i = true := by
  rw [bit, h]
  obtain h | h | h | h | h | h | h | h : i % 8 = 0 ∨ i % 8 = 1 ∨ i % 8 = 2 ∨ i % 8 = 3 ∨ i % 8 = 4 ∨
    i % 8 = 5 ∨ i % 8 = 6 ∨ i % 8 = 7 := by omega
  all_goals
    rw [h]
    rfl

end Buffer

def firstClear (f : Nat → Bool) (n : Nat) : Option Nat := (List.range' 0 n).find? fun i => !f i

theorem firstClear_eq_some {f : Nat → Bool} {n i : Nat} :
    firstClear f n = some i ↔ i < n ∧ f i = false ∧ ∀ j, j < i → f j = true := by
  simp only [firstClear, ← List.range_eq_range', List.find?_range_eq_some, Bool.not_eq_eq_eq_not,
    Bool.not_true, Bool.not_not, List.mem_range]
  tauto

theorem firstClear_eq_none {f : Nat → Bool} {n : Nat} :
    firstClear f n = none ↔ ∀ i, i < n → f i = true := by
  simp [firstClear, ← List.range_eq_range', List.find?_eq_none]

theorem firstClear_congr {f g : Nat → Bool} {n : Nat} (h : ∀ i, i < n → f i = g i) :
    firstClear f n = firstClear g n := by
  cases hg : firstClear g n with
  | none => exact firstClear_eq_none.mpr fun i hi => (h i hi).trans (firstClear_eq_none.mp hg i hi)
  | some i =>
    obtain ⟨hi, hclear, hset⟩ := firstClear_eq_some.mp hg
    exact firstClear_eq_some.mpr ⟨hi, (h i hi).trans hclear, fun j hj => (h j (by omega)).trans
      (hset j hj)⟩

theorem exists_firstClear_of_clear {f : Nat → Bool} {n i : Nat} (hi : i < n) (hf : f i = false) :
    ∃ q, firstClear f n = some q := by
  cases hnone : firstClear f n with
  | some q => exact ⟨q, rfl⟩
  | none =>
    rw [firstClear_eq_none.mp hnone i hi] at hf
    cases hf

def clearCount (f : Nat → Bool) (n : Nat) : Nat :=
  ((Finset.range n).filter fun i => f i = false).card

variable {f : Nat → Bool} {n i : Nat}

theorem clearCount_set (hi : i < n) (hf : f i = false) :
    clearCount (Function.update f i true) n + 1 = clearCount f n := by
  have hmem : i ∈ (Finset.range n).filter fun i => f i = false := by simp [hi, hf]
  have herase : (Finset.range n).filter (fun j => Function.update f i true j = false) =
      ((Finset.range n).filter fun i => f i = false).erase i := by
    ext j
    by_cases hj : j = i
    · simp [hj]
    · simp [hj]
  rw [clearCount, herase, Finset.card_erase_add_one hmem, clearCount]

theorem clearCount_take (h : firstClear f n = some i) :
    clearCount (Function.update f i true) n + 1 = clearCount f n :=
  let ⟨hi, hf, _⟩ := firstClear_eq_some.mp h
  clearCount_set hi hf

theorem clearCount_congr {g : Nat → Bool} (h : ∀ k, k < n → f k = g k) :
    clearCount f n = clearCount g n :=
  congrArg Finset.card (Finset.filter_congr fun k hk => by rw [h k (Finset.mem_range.mp hk)])

theorem clearCount_clear {g : Nat → Bool} (hi : i < n) (hf : f i = true)
    (hg : ∀ k, k < n → g k = Function.update f i false k) :
    clearCount f n + 1 = clearCount g n := by
  rw [← clearCount_set hi (by rw [hg i hi, Function.update_self] : g i = false)]
  refine congrArg (· + 1) (clearCount_congr fun k hk => ?_)
  by_cases h : k = i
  · rw [h, hf, Function.update_self]
  · rw [Function.update_of_ne h, hg k hk, Function.update_of_ne h]

theorem clearCount_of_lt {m : Nat} (h : ∀ k, f k = decide (k < m)) : clearCount f n = n - m := by
  rw [← Nat.card_Ico, clearCount]
  refine congrArg Finset.card (Finset.ext fun k => ?_)
  simp only [Finset.mem_filter, Finset.mem_range, Finset.mem_Ico, h, decide_eq_false_iff_not]
  omega

theorem exists_firstClear (h : 0 < clearCount f n) : ∃ i, firstClear f n = some i := by
  obtain ⟨i, hi⟩ := Finset.card_pos.mp h
  rw [Finset.mem_filter, Finset.mem_range] at hi
  exact exists_firstClear_of_clear hi.1 hi.2

def clears (f : Nat → Bool) (n : Nat) : List Nat := (List.range n).filter fun i => !f i

theorem mem_clears : i ∈ clears f n ↔ i < n ∧ f i = false := by simp [clears]

theorem head?_clears (f : Nat → Bool) (n : Nat) : (clears f n).head? = firstClear f n := by
  rw [clears, List.head?_filter, List.range_eq_range', firstClear]

theorem nodup_clears (f : Nat → Bool) (n : Nat) : (clears f n).Nodup := List.nodup_range.filter _

theorem clears_eq_cons (h : firstClear f n = some i) :
    clears f n = i :: clears (Function.update f i true) n := by
  rw [← head?_clears, List.head?_eq_some_iff] at h
  obtain ⟨rest, hrest⟩ := h
  have hnot : i ∉ rest := by
    have hnodup := nodup_clears f n
    rw [hrest] at hnodup
    exact (List.nodup_cons.mp hnodup).1
  have hfilter : clears (Function.update f i true) n = (clears f n).filter (· ≠ i) := by
    rw [clears, clears, List.filter_filter]
    refine List.filter_congr fun j _ => ?_
    by_cases hj : j = i
    · simp [hj]
    · simp [hj]
  have hrest' : rest.filter (· ≠ i) = rest := List.filter_eq_self.mpr fun j hj => by
    rw [decide_eq_true_eq]
    rintro rfl
    exact hnot hj
  rw [hfilter, hrest, List.filter_cons_of_neg (by simp), hrest']

theorem clears_congr {g : Nat → Bool} (h : ∀ k, k < n → f k = g k) : clears f n = clears g n :=
  List.filter_congr fun k hk => by rw [h k (List.mem_range.mp hk)]

theorem clears_of_lt {m : Nat} (h : ∀ k, f k = decide (k < m)) (hm : m ≤ n) :
    clears f n = List.range' m (n - m) := by
  have hrange : List.range n = List.range' 0 m ++ List.range' m (n - m) := by
    have happend := List.range'_append_1 (s := 0) (m := m) (n := n - m)
    rw [Nat.zero_add, Nat.add_sub_of_le hm] at happend
    rw [happend, List.range_eq_range']
  have hlow : (List.range' 0 m).filter (fun i => !f i) = [] :=
      List.filter_eq_nil_iff.mpr fun k hk => by
    have hlt := (List.mem_range'_1.mp hk).2
    rw [h, decide_eq_true (by omega)]
    simp
  have hhigh : (List.range' m (n - m)).filter (fun i => !f i) = List.range' m (n - m) :=
      List.filter_eq_self.mpr fun k hk => by
    rw [h, decide_eq_false (Nat.not_lt.mpr (List.mem_range'_1.mp hk).1)]
    rfl
  rw [clears, hrange, List.filter_append, hlow, hhigh, List.nil_append]

end Ucas.Lib

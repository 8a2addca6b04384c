import Mathlib.Algebra.Group.Nat.Defs
import Mathlib.Data.List.GetD
import Mathlib.Tactic.SplitIfs
import Mathlib.Tactic.Ext

/-! Byte buffers of a fixed size: copying a range in and out, and little-endian 32-bit words.
Reading outside a buffer gives zero, writing outside it does nothing. -/

namespace Ucas.Lib

theorem getD_drop {α : Type} (l : List α) (n i : Nat) (d : α) :
    (l.drop n).getD i d = l.getD (n + i) d := by
  simp only [List.getD_eq_getElem?_getD, List.getElem?_drop]

def Buffer (n : Nat) := Fin n → UInt8

namespace Buffer
variable {n m : Nat}

def get (b : Buffer n) (i : Nat) : UInt8 := if h : i < n then b ⟨i, h⟩ else 0

def ofFn (f : Nat → UInt8) : Buffer n := fun i => f i

@[simp] theorem get_ofFn (f : Nat → UInt8) (i : Nat) :
    (ofFn f : Buffer n).get i = if i < n then f i else 0 := by
  simp [get, ofFn]

theorem get_of_le {b : Buffer n} {i : Nat} (h : n ≤ i) : b.get i = 0 := by
  simp [get, Nat.not_lt.mpr h]

@[ext] theorem ext {a b : Buffer n} (h : ∀ i, i < n → a.get i = b.get i) : a = b := by
  funext i
  simpa [get] using h i i.isLt

def zero : Buffer n := ofFn fun _ => 0

@[simp] theorem get_zero (i : Nat) : (zero : Buffer n).get i = 0 := by simp [zero]

def set (b : Buffer n) (k : Nat) (v : UInt8) : Buffer n :=
  ofFn fun i => if i = k then v else b.get i

theorem get_set (b : Buffer n) (k : Nat) (v : UInt8) (i : Nat) :
    (b.set k v).get i = if i = k ∧ k < n then v else b.get i := by
  by_cases hi : i < n
  · by_cases hk : i = k
    · subst hk
      simp [set, hi]
    · simp [set, hi, hk]
  · simp [set, hi, get_of_le (b := b) (Nat.not_lt.mp hi)]
    omega

def slice (b : Buffer n) (o m : Nat) : Buffer m := ofFn fun i => b.get (o + i)

theorem get_slice (b : Buffer n) (o : Nat) {i : Nat} (h : i < m) :
    (b.slice o m).get i = b.get (o + i) := by
  simp [slice, h]

def blit (b : Buffer n) (o : Nat) (src : Buffer m) : Buffer n :=
  ofFn fun i => if o ≤ i ∧ i < o + m then src.get (i - o) else b.get i

theorem get_blit (b : Buffer n) (o : Nat) (src : Buffer m) {i : Nat} (h : i < n) :
    (b.blit o src).get i = if o ≤ i ∧ i < o + m then src.get (i - o) else b.get i := by
  simp [blit, h]

def putBytes (b : Buffer n) (o : Nat) (l : List UInt8) : Buffer n :=
  ofFn fun i => if o ≤ i ∧ i < o + l.length then l.getD (i - o) 0 else b.get i

theorem get_putBytes (b : Buffer n) (o : Nat) (l : List UInt8) {i : Nat} (h : i < n) :
    (b.putBytes o l).get i = if o ≤ i ∧ i < o + l.length then l.getD (i - o) 0 else b.get i := by
  simp [putBytes, h]

theorem putBytes_nil (b : Buffer n) (o : Nat) : b.putBytes o [] = b := by
  refine ext fun i hi => ?_
  rw [get_putBytes _ _ _ hi, if_neg (by rw [List.length_nil]; omega)]

theorem putBytes_cons {b : Buffer n} {o : Nat} (ho : o < n) (c : UInt8) (l : List UInt8) :
    b.putBytes o (c :: l) = (b.set o c).putBytes (o + 1) l := by
  refine ext fun i hi => ?_
  rw [get_putBytes _ _ _ hi, get_putBytes _ _ _ hi, get_set, List.length_cons]
  by_cases hc : i = o
  · subst hc
    rw [if_pos (by omega), if_neg (by omega), if_pos ⟨rfl, ho⟩, Nat.sub_self, List.getD_cons_zero]
  · by_cases hin : o + 1 ≤ i ∧ i < o + 1 + l.length
    · rw [if_pos (by omega), if_pos hin, show i - o = i - (o + 1) + 1 by omega, List.getD_cons_succ]
    · rw [if_neg (by omega), if_neg hin, if_neg (by omega)]

theorem set_putBytes {b : Buffer n} {o : Nat} {l : List UInt8} (ho : o + l.length < n) (c : UInt8) :
    (b.putBytes o l).set (o + l.length) c = b.putBytes o (l ++ [c]) := by
  induction l generalizing b o with
  | nil =>
    rw [putBytes_nil, List.nil_append, putBytes_cons (show o < n from ho), putBytes_nil]
    rfl
  | cons a l ih =>
    rw [List.length_cons] at ho
    rw [putBytes_cons (by omega), List.cons_append, putBytes_cons (by omega), ← ih (by omega),
      List.length_cons,
      Nat.add_assoc, Nat.add_comm 1]

/-- From offset `o` on the buffer has the bytes of a text and its NUL, as far as the buffer goes. -/
def HasText (b : Buffer n) (l : List UInt8) (o : Nat) : Prop :=
  ∀ k ≤ l.length, o + k < n → b.get (o + k) = l.getD k 0

instance (b : Buffer n) (l : List UInt8) (o : Nat) : Decidable (b.HasText l o) :=
  inferInstanceAs (Decidable (∀ k ≤ l.length, o + k < n → b.get (o + k) = l.getD k 0))

theorem hasText_nil {b : Buffer n} {o : Nat} (ho : o < n) : b.HasText [] o ↔ b.get o = 0 := by
  simp [HasText, ho]

theorem hasText_cons {b : Buffer n} {c : UInt8} {l : List UInt8} {o : Nat} (ho : o < n) :
    b.HasText (c :: l) o ↔ b.get o = c ∧ b.HasText l (o + 1) := by
  constructor
  · intro h
    refine ⟨h 0 (Nat.zero_le _) ho, fun k hk hlt => ?_⟩
    rw [Nat.add_assoc, Nat.add_comm 1 k]
    exact h (k + 1) (Nat.succ_le_succ hk) (by omega)
  · rintro ⟨hc, h⟩ k hk hlt
    cases k with
    | zero => exact hc
    | succ k =>
      rw [Nat.add_comm k 1, ← Nat.add_assoc, Nat.add_comm 1 k, List.getD_cons_succ]
      exact h k (Nat.le_of_succ_le_succ hk) (by omega)

theorem hasText_of_le {b : Buffer n} {l : List UInt8} {o : Nat} (ho : ¬ o < n) : b.HasText l o :=
  fun _ _ hlt => absurd hlt (by omega)

theorem HasText.unique {b : Buffer n} {l l' : List UInt8} {o : Nat} (h : b.HasText l o)
    (h' : b.HasText l' o)
    (hl : 0 ∉ l) (hl' : 0 ∉ l') (hlen : o + l.length < n) (hlen' : o + l'.length < n) : l = l' := by
  induction l generalizing l' o with
  | nil =>
    cases l' with
    | nil => rfl
    | cons c' l' =>
      rw [hasText_nil (by omega)] at h
      rw [hasText_cons (by omega)] at h'
      exact absurd (h.symm.trans h'.1) fun h0 => hl' (h0 ▸ List.mem_cons_self)
  | cons c l ih =>
    rw [List.length_cons] at hlen
    rw [hasText_cons (by omega)] at h
    cases l' with
    | nil =>
      rw [hasText_nil (by omega)] at h'
      exact absurd (h'.symm.trans h.1) fun h0 => hl (h0 ▸ List.mem_cons_self)
    | cons c' l' =>
      rw [List.length_cons] at hlen'
      rw [hasText_cons (by omega)] at h'
      rw [h.1.symm.trans h'.1, ih h.2 h'.2 (fun h0 => hl (List.mem_cons_of_mem _ h0))
        (fun h0 => hl' (List.mem_cons_of_mem _ h0)) (by omega) (by omega)]

theorem hasText_putBytes (b : Buffer n) (l : List UInt8) (o : Nat) :
    (b.putBytes o (l ++ [0])).HasText l o := by
  intro k hk hlt
  rw [get_putBytes _ _ _ hlt, if_pos (by rw [List.length_append, List.length_singleton]; omega),
    Nat.add_sub_cancel_left]
  by_cases hlast : k < l.length
  · rw [List.getD_append _ _ _ _ hlast]
  · rw [List.getD_append_right _ _ _ _ (by omega), List.getD_eq_default l _ (by omega),
      show k - l.length = 0 by omega]
    rfl

theorem slice_blit (b : Buffer n) {o : Nat} (src : Buffer m) (h : o + m ≤ n) :
    (b.blit o src).slice o m = src := by
  refine ext fun i hi => ?_
  rw [get_slice _ _ hi, get_blit _ _ _ (by omega), if_pos (by omega), Nat.add_sub_cancel_left]

theorem blit_slice (b : Buffer n) (o m : Nat) : b.blit o (b.slice o m) = b := by
  ext i hi
  rw [get_blit _ _ _ hi]
  split_ifs with h
  · rw [get_slice _ _ (by omega), Nat.add_sub_cancel' h.1]
  · rfl

theorem ext_slices {a b : Buffer n} (hm : 0 < m)
    (h : ∀ k, m * k < n → a.slice (m * k) m = b.slice (m * k) m) : a = b := by
  refine Buffer.ext fun i hi => ?_
  have hle := Nat.mul_div_le i m
  have hget := congrArg (fun c => get c (i % m)) (h (i / m) (by omega))
  rwa [get_slice _ _ (Nat.mod_lt _ hm), get_slice _ _ (Nat.mod_lt _ hm), Nat.div_add_mod] at hget

theorem slice_blit_of_disjoint (b : Buffer n) {o o' k : Nat} (src : Buffer m)
    (h : o' + k ≤ o ∨ o + m ≤ o') (hk : o' + k ≤ n) : (b.blit o src).slice o' k = b.slice o' k := by
  refine ext fun i hi => ?_
  rw [get_slice _ _ hi, get_slice _ _ hi, get_blit _ _ _ (by omega), if_neg (by omega)]

theorem get_foldl_blit (f : Nat → Buffer m) (b : Buffer n) {k : Nat} (hk : m * k ≤ n) {i : Nat}
    (hi : i < n) :
    ((List.range k).foldl (fun b j => b.blit (m * j) (f j)) b).get i =
      if i < m * k then (f (i / m)).get (i % m) else b.get i := by
  induction k with
  | zero => simp
  | succ k ih =>
    have hsucc : m * (k + 1) = m * k + m := Nat.mul_succ m k
    rw [List.range_succ, List.foldl_append, List.foldl_cons, List.foldl_nil, get_blit _ _ _ hi,
      ih (by omega)]
    split_ifs with h1 h2 h3 h4 h5
    · have hm : 0 < m := by omega
      have hdiv : i / m = k := by
        rw [Nat.div_eq_iff hm, Nat.mul_comm]
        omega
      have hmod : i - m * k = i % m := by
        have := Nat.div_add_mod i m
        rw [hdiv] at this
        omega
      rw [hdiv, hmod]
    · omega
    · rfl
    · omega
    · omega
    · rfl

def wordByte (w : UInt32) (k : Nat) : UInt8 := UInt8.ofNat (w.toNat / 256 ^ k)

def word (b : Buffer n) (o : Nat) : UInt32 :=
  UInt32.ofNat ((b.get o).toNat + 256 * (b.get (o + 1)).toNat + 65536 * (b.get (o + 2)).toNat +
    16777216 * (b.get (o + 3)).toNat)

theorem word_of_bytes {b : Buffer n} {o : Nat} {w : UInt32}
    (h : ∀ k, k < 4 → b.get (o + k) = wordByte w k) : b.word o = w := by
  have hw := w.toNat_lt
  have h0 := h 0 (by omega)
  rw [Nat.add_zero] at h0
  rw [word, h0, h 1 (by omega), h 2 (by omega), h 3 (by omega)]
  apply UInt32.toNat_inj.mp
  simp only [wordByte, UInt32.toNat_ofNat', UInt8.toNat_ofNat', Nat.reducePow, Nat.pow_zero,
    Nat.div_one]
  omega

theorem word_congr {b : Buffer n} {c : Buffer m} {o p : Nat}
    (h : ∀ k, k < 4 → b.get (o + k) = c.get (p + k)) : b.word o = c.word p := by
  have h0 := h 0 (by omega)
  simp only [Nat.add_zero] at h0
  rw [word, word, h0, h 1 (by omega), h 2 (by omega), h 3 (by omega)]

@[simp] theorem word_zero (o : Nat) : (zero : Buffer n).word o = 0 := by simp [word]

theorem wordByte_word {b : Buffer n} {o k : Nat} (h : k < 4) :
    wordByte (b.word o) k = b.get (o + k) := by
  have h0 := (b.get o).toNat_lt
  have h1 := (b.get (o + 1)).toNat_lt
  have h2 := (b.get (o + 2)).toNat_lt
  have h3 := (b.get (o + 3)).toNat_lt
  apply UInt8.toNat_inj.mp
  simp only [wordByte, word, UInt32.toNat_ofNat', UInt8.toNat_ofNat']
  obtain rfl | rfl | rfl | rfl : k = 0 ∨ k = 1 ∨ k = 2 ∨ k = 3 := by omega
  all_goals
    simp only [Nat.reducePow, Nat.pow_zero, Nat.div_one, Nat.add_zero]
    omega

theorem ext_words {a b : Buffer (4 * m)} (h : ∀ k, k < m → a.word (4 * k) = b.word (4 * k)) :
    a = b := by
  refine ext fun i hi => ?_
  have hw := congrArg (wordByte · (i % 4)) (h (i / 4) (by omega))
  simpa only [wordByte_word (show i % 4 < 4 by omega), Nat.div_add_mod] using hw

def setWord (b : Buffer n) (o : Nat) (w : UInt32) : Buffer n :=
  ofFn fun i => if o ≤ i ∧ i < o + 4 then wordByte w (i - o) else b.get i

theorem word_setWord (b : Buffer n) {o : Nat} (w : UInt32) (h : o + 4 ≤ n) :
    (b.setWord o w).word o = w := by
  refine word_of_bytes fun k hk => ?_
  rw [setWord, get_ofFn, if_pos (by omega), if_pos (by omega), Nat.add_sub_cancel_left]

theorem word_setWord_of_disjoint (b : Buffer n) {o p : Nat} (w : UInt32)
    (h : p + 4 ≤ o ∨ o + 4 ≤ p) :
    (b.setWord o w).word p = b.word p := by
  refine word_congr fun k hk => ?_
  rw [setWord, get_ofFn]
  split_ifs with h1 h2
  · omega
  · rfl
  · exact (get_of_le (Nat.not_lt.mp h1)).symm

theorem get_setWord (b : Buffer n) (o : Nat) (w : UInt32) {i : Nat} (h : i < n) :
    (b.setWord o w).get i = if o ≤ i ∧ i < o + 4 then wordByte w (i - o) else b.get i := by
  simp [setWord, h]

theorem setWord_setWord (b : Buffer n) (o : Nat) (w w' : UInt32) :
    (b.setWord o w).setWord o w' = b.setWord o w' := by
  refine ext fun i hi => ?_
  simp only [get_setWord _ _ _ hi]
  split_ifs <;> rfl

theorem setWord_word (b : Buffer n) (o : Nat) : b.setWord o (b.word o) = b := by
  refine ext fun i hi => ?_
  rw [get_setWord _ _ _ hi]
  split_ifs with h
  · rw [wordByte_word (by omega), show o + (i - o) = i by omega]
  · rfl

theorem setWord_comm (b : Buffer n) {o p : Nat} (w w' : UInt32) (h : p + 4 ≤ o ∨ o + 4 ≤ p) :
    (b.setWord o w).setWord p w' = (b.setWord p w').setWord o w := by
  refine ext fun i hi => ?_
  simp only [get_setWord _ _ _ hi]
  split_ifs <;> first | rfl | omega

def ofWords (f : Nat → UInt32) : Buffer n := ofFn fun i => wordByte (f (i / 4)) (i % 4)

theorem word_ofWords (f : Nat → UInt32) {k : Nat} (h : 4 * k + 4 ≤ n) :
    (ofWords f : Buffer n).word (4 * k) = f k := by
  refine word_of_bytes fun i hi => ?_
  rw [ofWords, get_ofFn, if_pos (by omega), show (4 * k + i) / 4 = k by omega,
    show (4 * k + i) % 4 = i by omega]

theorem word_slice (b : Buffer n) (o : Nat) {p : Nat} (h : p + 4 ≤ m) :
    (b.slice o m).word p = b.word (o + p) :=
  word_congr fun k hk => by rw [get_slice _ _ (by omega), Nat.add_assoc]

end Buffer

end Ucas.Lib

import UcasOs.Lib.Buffer

/-! `libs/string.c`. -/

namespace Ucas.Libs
open Ucas.Lib
variable {n o : Nat} {b : Buffer n} {l : List UInt8}

/-- `strcmp(str1, str2)` from byte `o` on, where `str1` is followed by its NUL and `str2` is in a
buffer; nothing if it reads behind the buffer. -/
def strcmp (str2 : Buffer n) : List UInt8 → Nat → Option Int
  | [], o => if o < n then some (if str2.get o = 0 then 0 else -1) else none
  | c :: str1, o =>
    if o < n then if str2.get o = c then strcmp str2 str1 (o + 1) else some 1 else none

theorem strcmp_eq_zero_iff : strcmp b l o = some 0 ↔ b.HasText l o ∧ o + l.length < n := by
  induction l generalizing o with
  | nil =>
    rw [strcmp]
    by_cases hlt : o < n
    · rw [if_pos hlt, Buffer.hasText_nil hlt]
      by_cases h0 : b.get o = 0 <;> simp [h0, hlt]
    · simp [hlt]
  | cons c l ih =>
    rw [strcmp]
    by_cases hlt : o < n
    · rw [if_pos hlt, Buffer.hasText_cons hlt, List.length_cons, show o + (l.length + 1) =
        o + 1 + l.length by omega]
      by_cases hc : b.get o = c <;> simp [hc, ih]
    · rw [if_neg hlt, List.length_cons]
      exact iff_of_false (by simp) fun h => by omega

theorem exists_strcmp (hl : 0 ∉ l) (hnul : ∃ k, o ≤ k ∧ k < n ∧ b.get k = 0) :
    ∃ r, strcmp b l o = some r := by
  induction l generalizing o with
  | nil =>
    obtain ⟨k, hle, hlt, -⟩ := hnul
    rw [strcmp, if_pos (by omega)]
    exact ⟨_, rfl⟩
  | cons c l ih =>
    obtain ⟨k, hle, hlt, hzero⟩ := hnul
    rw [List.mem_cons, not_or] at hl
    rw [strcmp, if_pos (by omega)]
    by_cases hc : b.get o = c
    · have hne : o ≠ k := by
        rintro rfl
        exact hl.1 (hzero.symm.trans hc)
      rw [if_pos hc]
      exact ih hl.2 ⟨k, by omega, hlt, hzero⟩
    · exact ⟨1, if_neg hc⟩

end Ucas.Libs

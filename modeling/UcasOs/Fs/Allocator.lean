import UcasOs.Fs.Shows
import UcasOs.Libs.Bitmap

/-! The searches for a free inode and a free block: a loop over the bytes of the bitmap stops at the
first byte that is not `0xff`, and a loop over its bits, which has no bound of its own, stops at the
first that is clear. -/

namespace Ucas.Fs
open Ucas.Lib Ucas.Libs

section Search
variable {n : Nat} (bmp : Buffer n)

def bitsSeen : Nat → Nat → List Nat
  | 0, _ => []
  | fuel + 1, j => j :: if checkBitmap bmp j = 1 then bitsSeen fuel (j + 1) else []

def stopsAt : Nat → Nat → Nat → Option (Nat × List Nat)
  | 0, _, _ => none
  | k + 1, i, j =>
    if bmp.get i ≠ 0xff then some (i, bitsSeen bmp (8 * n) j) else stopsAt k (i + 1) (j + 8)

/-- The result `r` of a search in the first `m` bytes of a bitmap: the least clear bit, or `error`
if there is none. Only bits of one byte are looked at. -/
structure FindsLeast (m : Nat) (error r : UInt32) : Prop where
  least : (∃ k < 8 * m, checkBitmap bmp k = 0) →
    r.toNat < 8 * m ∧ checkBitmap bmp r.toNat = 0 ∧ ∀ k < r.toNat, checkBitmap bmp k = 1
  full : r = error ↔ ∀ k < 8 * m, checkBitmap bmp k = 1
  seen : ∀ i bits, stopsAt bmp m 0 0 = some (i, bits) → r.toNat ∈ bits ∧ ∀ k ∈ bits, k / 8 = i

variable {bmp} {fuel j : Nat}

theorem of_mem_bitsSeen {b : Nat} (hb : b ∈ bitsSeen bmp fuel j) :
    j ≤ b ∧ ∀ k, j ≤ k → k < b → bmp.bit k = true := by
  induction fuel generalizing j with
  | zero => cases hb
  | succ fuel ih =>
    rw [bitsSeen, List.mem_cons] at hb
    obtain rfl | hb := hb
    · exact ⟨le_rfl, fun k hjk hkj => absurd hjk (by omega)⟩
    · split_ifs at hb with hset
      · obtain ⟨hle, hbefore⟩ := ih hb
        refine ⟨by omega, fun k hjk hkb => ?_⟩
        by_cases hkj : k = j
        · rw [hkj]
          exact checkBitmap_eq_one.mp hset
        · exact hbefore k (by omega) hkb
      · cases hb

theorem mem_bitsSeen {b : Nat} (hle : j ≤ b) (hset : ∀ k, j ≤ k → k < b → bmp.bit k = true)
    (hfuel : b < j + fuel) :
    b ∈ bitsSeen bmp fuel j := by
  induction fuel generalizing j with
  | zero => omega
  | succ fuel ih =>
    rw [bitsSeen, List.mem_cons]
    by_cases hbj : b = j
    · exact .inl hbj
    · refine .inr ?_
      rw [if_pos (checkBitmap_eq_one.mpr (hset j le_rfl (by omega)))]
      exact ih (by omega) (fun k hk => hset k (by omega)) (by omega)

theorem of_stopsAt {k i i' : Nat} {bits : List Nat} (hset : ∀ j, j < 8 * i → bmp.bit j = true)
    (h : stopsAt bmp k i (8 * i) = some (i', bits)) :
    i' < i + k ∧ bmp.get i' ≠ 0xff ∧ bits = bitsSeen bmp (8 * n) (8 * i') ∧ ∀ j, j < 8 * i' →
    bmp.bit j = true := by
  induction k generalizing i with
  | zero => cases h
  | succ k ih =>
    rw [stopsAt] at h
    split_ifs at h with hbyte
    · obtain ⟨rfl, rfl⟩ := Prod.mk.inj (Option.some.inj h)
      exact ⟨by omega, hbyte, rfl, hset⟩
    · have hset' : ∀ j, j < 8 * (i + 1) → bmp.bit j = true := fun j hj => by
        by_cases hji : j < 8 * i
        · exact hset j hji
        · exact Buffer.bit_of_byte_full (by rw [show j / 8 = i by omega, not_not.mp hbyte])
      obtain ⟨hlt, hstop⟩ := ih hset' h
      exact ⟨by omega, hstop⟩

end Search

theorem findFree_findsLeast {n : Nat} (bmp : Buffer n) {m : Nat} (hm : m ≤ n) {error : UInt32}
    (herror : 8 * m ≤ error.toNat) :
    FindsLeast bmp m error (FileSys.findFree bmp error m 0 0) := by
  have heq := FileSys.findFree_eq bmp error m 0 (by omega) (by omega)
  rw [Nat.mul_zero, Nat.zero_add] at heq
  rw [heq]
  have hnat : ∀ {q}, q < 8 * m → (UInt32.ofNat q).toNat = q := fun hq => by
    have := error.toNat_lt
    rw [UInt32.toNat_ofNat', Nat.mod_eq_of_lt (by omega)]
  refine ⟨fun ⟨k, hk, hclear⟩ => ?_, ⟨fun hfull k hk => ?_, fun hall => ?_⟩, fun i bits hstop => ?_⟩
  · obtain ⟨q, hq⟩ := exists_firstClear_of_clear hk (checkBitmap_eq_zero.mp hclear)
    obtain ⟨hlt, hzero, hbefore⟩ := firstClear_eq_some.mp hq
    rw [hq, Option.elim_some, hnat hlt]
    exact ⟨hlt, checkBitmap_eq_zero.mpr hzero, fun k hk => checkBitmap_eq_one.mpr (hbefore k hk)⟩
  · rw [checkBitmap_eq_one]
    by_contra hclear
    obtain ⟨q, hq⟩ := exists_firstClear_of_clear hk (by simpa using hclear)
    have hlt := (firstClear_eq_some.mp hq).1
    rw [hq, Option.elim_some] at hfull
    rw [← hfull, hnat hlt] at herror
    omega
  · rw [firstClear_eq_none.mpr fun k hk => checkBitmap_eq_one.mp (hall k hk)]
    rfl
  · obtain ⟨hlt, hbyte, rfl, hset⟩ := of_stopsAt (i := 0) (by omega) hstop
    -- the byte has a clear bit, and no bit behind it is looked at
    obtain ⟨o, ho, hclear⟩ := Buffer.exists_clear_of_ne hbyte
    have hbit : bmp.bit (8 * i + o) = false := by
      rw [Buffer.bit, show (8 * i + o) / 8 = i by omega, show (8 * i + o) % 8 = o by omega, hclear]
    obtain ⟨q, hq⟩ := exists_firstClear_of_clear (show 8 * i + o < 8 * m by omega) hbit
    obtain ⟨hqlt, hzero, hbefore⟩ := firstClear_eq_some.mp hq
    have hge : 8 * i ≤ q := by
      by_contra hlt
      rw [hset q (by omega)] at hzero
      cases hzero
    rw [hq, Option.elim_some, hnat hqlt]
    refine ⟨mem_bitsSeen hge (fun k _ => hbefore k) (by omega), fun k hk => ?_⟩
    obtain ⟨hle, hsetk⟩ := of_mem_bitsSeen hk
    have hko : k ≤ 8 * i + o := by
      by_contra hgt
      rw [hsetk _ (by omega) (by omega)] at hbit
      cases hbit
    omega

theorem allocator_search (s : FileSys) :
    FindsLeast s.blockbmp (blockNum / 8) errorNoFreeBlock s.findFreeBlock ∧
    FindsLeast s.inodebmp (inodeNum / 8) errorNoFreeInode s.findFreeInode ∧
    ∀ {n : Nat} (bitmap : Buffer n) {k : Nat}, k < 8 * n → ∀ j,
      checkBitmap (setBitmap bitmap k) j = (if j = k then 1 else checkBitmap bitmap j) ∧
      checkBitmap (unsetBitmap bitmap k) j = if j = k then 0 else checkBitmap bitmap j :=
  ⟨findFree_findsLeast s.blockbmp (by decide) (by decide), findFree_findsLeast s.inodebmp
    (by decide) (by decide),
    fun bitmap _ hk j => ⟨checkBitmap_setBitmap bitmap hk j, checkBitmap_unsetBitmap bitmap hk j⟩⟩

theorem allocator_search_blank :
    FindsLeast FileSys.blank.blockbmp 32768 errorNoFreeBlock FileSys.blank.findFreeBlock ∧
    checkBitmap (setBitmap (.zero : Buffer 2) 9) 9 = 1 := by
  obtain ⟨hblock, -, hset⟩ := allocator_search .blank
  exact ⟨hblock, (hset .zero (by decide) 9).1⟩

end Ucas.Fs

import UcasOs.Epmon.WriteBlock
import Mathlib.Tactic.ByContra

/-! The card routines of libepmon. On QEMU they leave the work to PMON; on the board `sdread` and
`sdwrite` go through the card one sector of 512 bytes at a time, with `memcopy` between the caller's
buffer and a buffer of their own. `sdwrite` does not read the sector it writes to. -/

namespace Ucas.Epmon
open Ucas.Lib Ucas.Lib.Device

section Memcopy

/-- `while (n-- > 0) *--t = *--f`. -/
def copyDown : Nat → UInt32 → UInt32 → Device → Device
  | 0, _, _, mem => mem
  | k + 1, t, f, mem => copyDown k (t - 1) (f - 1) (mem.store (t - 1) (mem (f - 1)))

/-- `while (n-- > 0) *t++ = *f++`. -/
def copyUp : Nat → UInt32 → UInt32 → Device → Device
  | 0, _, _, mem => mem
  | k + 1, t, f, mem => copyUp k (t + 1) (f + 1) (mem.store t (mem f))

def memcopy (s1 s2 : UInt32) (n : Int) (mem : Device) : Device :=
  if s2 < s1 then copyDown n.toNat (s1 + UInt32.ofInt n) (s2 + UInt32.ofInt n) mem else
    copyUp n.toNat s1 s2 mem

variable {s1 s2 : UInt32} {n k : Nat} {mem : Device}

theorem add_ofNat_succ_sub_one (a : UInt32) (k : Nat) :
    a + UInt32.ofNat (k + 1) - 1 = a + UInt32.ofNat k := by
  rw [UInt32.ofNat_add, ← UInt32.add_assoc]
  exact UInt32.add_sub_cancel _ _

theorem add_ofNat_succ (a : UInt32) (k : Nat) :
    a + UInt32.ofNat k + 1 = a + UInt32.ofNat (k + 1) := by
  rw [UInt32.ofNat_add, ← UInt32.add_assoc]
  rfl

theorem toNat_add_ofNat {a : UInt32} (h : a.toNat + k < 2 ^ 32) :
    (a + UInt32.ofNat k).toNat = a.toNat + k := by
  simp only [UInt32.toNat_add, UInt32.toNat_ofNat']
  omega

theorem ofInt_natCast (n : Nat) : UInt32.ofInt n = UInt32.ofNat n := by
  rw [← UInt32.toNat_inj, UInt32.ofInt, UInt32.toNat_ofNat', UInt32.toNat_ofNat']
  omega

theorem copyDown_eq (hlt : s2.toNat < s1.toNat) (h1 : s1.toNat + k ≤ 2 ^ 32) :
    copyDown k (s1 + UInt32.ofNat k) (s2 + UInt32.ofNat k) mem = mem.fill s1 k (mem.bytes s2) := by
  induction k generalizing mem with
  | zero => simp [copyDown]
  | succ k ih =>
    rw [copyDown, add_ofNat_succ_sub_one, add_ofNat_succ_sub_one, ih (by omega)]
    have hbytes : ∀ i < k, (mem.store (s1 + UInt32.ofNat k) (mem.bytes s2 k)).bytes s2 i = mem.bytes
        s2 i := by
      intro i hi
      rw [bytes, store, if_neg]
      · rfl
      · rw [← UInt32.toNat_inj, toNat_add_ofNat (by omega), toNat_add_ofNat (by omega)]
        omega
    rw [show mem (s2 + UInt32.ofNat k) = mem.bytes s2 k from rfl, fill_congr hbytes, store_fill
      (by omega)]

theorem copyUp_eq (hle : s1.toNat ≤ s2.toNat) (h2 : s2.toNat + n ≤ 2 ^ 32) (hk : k ≤ n) :
    copyUp (n - k) (s1 + UInt32.ofNat k) (s2 + UInt32.ofNat k) (mem.fill s1 k (mem.bytes s2)) =
      mem.fill s1 n (mem.bytes s2) := by
  induction hrest : n - k generalizing k with
  | zero => rw [copyUp, show k = n by omega]
  | succ r ih =>
    have hbyte : mem.fill s1 k (mem.bytes s2) (s2 + UInt32.ofNat k) = mem.bytes s2 k := by
      rw [fill_apply, if_neg]
      · rfl
      · simp only [UInt32.toNat_sub, UInt32.toNat_add, UInt32.toNat_ofNat']
        omega
    rw [copyUp, hbyte, fill_succ (by omega), add_ofNat_succ, add_ofNat_succ]
    exact ih (by omega) (by omega)

theorem memcopy_eq (h1 : s1.toNat + n ≤ 2 ^ 32) (h2 : s2.toNat + n ≤ 2 ^ 32) :
    memcopy s1 s2 n mem = mem.fill s1 n (mem.bytes s2) := by
  rw [memcopy, Int.toNat_natCast, ofInt_natCast]
  split_ifs with hlt
  · exact copyDown_eq (UInt32.lt_iff_toNat_lt.mp hlt) h1
  · simpa using @copyUp_eq s1 s2 n 0 mem (UInt32.le_iff_toNat_le.mp (UInt32.not_lt.mp hlt)) h2
      (Nat.zero_le n)

end Memcopy

def readIndexbuf : UInt32 := 0xa0100200
def writeIndexbuf : UInt32 := 0xa0100400

def isQEMU (mem : Device) : Bool := (mem.read 0x8005f65c 4).word 0 == 0x27bdffa8

def chunk (pos left : UInt32) : UInt32 :=
  if 512 - (pos &&& 511) < left then 512 - (pos &&& 511) else left

section Source
variable {κ : Type} (pmon : Pmon κ)

/-- `while (left) { ... }`, with what is done for each chunk. -/
def chunkLoop (round : UInt32 → UInt32 → UInt32 → Machine κ → Option (Machine κ)) :
    Nat → UInt32 → UInt32 → UInt32 → Machine κ → Option (Machine κ)
  | 0, _, _, left, s => if left = 0 then some s else none
  | fuel + 1, buf, pos, left, s =>
    if left = 0 then some s
    else
      let once := chunk pos left
      (round buf pos once s).bind (chunkLoop round fuel (buf + once) (pos + once) (left - once))

def sdreadRound (buf pos once : UInt32) (s : Machine κ) : Option (Machine κ) :=
  let s := pmon.readSingleBlock (pos >>> 9) readIndexbuf s
  some { s with mem := memcopy buf (readIndexbuf + (pos &&& 511)) once.toNat s.mem }

def sdread (buf base n : UInt32) (s : Machine κ) : Option (UInt32 × Machine κ) :=
  if isQEMU s.mem then some (n, pmon.newSdcardRead buf base n s)
  else (chunkLoop (sdreadRound pmon) n.toNat buf base n s).map (n, ·)

/-- The fuel is for the wait in `Write_Single_Block`. -/
def sdwriteRound (fuel : Nat) (buf pos once : UInt32) (s : Machine κ) : Option (Machine κ) :=
  let s := { s with mem := memcopy (writeIndexbuf + (pos &&& 511)) buf once.toNat s.mem }
  (writeSingleBlock pmon fuel (pos >>> 9) writeIndexbuf s).map Prod.snd

def sdwrite (fuel : Nat) (buf base n : UInt32) (s : Machine κ) : Option (UInt32 × Machine κ) :=
  if isQEMU s.mem then some (n, pmon.newSdcardWrite base n buf s)
  else (chunkLoop (sdwriteRound pmon fuel) n.toNat buf base n s).map (n, ·)

end Source

def Sectors.bytes (c : Sectors) : Device := fun a => (c (a >>> 9)).get (a &&& 511).toNat

/-- `Read_Single_Block` of PMON puts the sector into the buffer. -/
def Reads {κ : Type} (pmon : Pmon κ) (view : κ → Stage × Sectors) : Prop :=
  ∀ (a buf : UInt32) (s : Machine κ), Idle view s.card →
    ∃ k, pmon.readSingleBlock a buf s = ⟨s.mem.write buf ((view s.card).2 a), k⟩ ∧ Idle view k ∧
      (view k).2 = (view s.card).2

/-- What PMON has for QEMU reads and writes any range of the card. -/
structure Emulates {κ : Type} (pmon : Pmon κ) (view : κ → Stage × Sectors) : Prop where
  read : ∀ (buf base n : UInt32) (s : Machine κ), Idle view s.card →
    ∃ k, pmon.newSdcardRead buf base n s =
        ⟨s.mem.write buf ((view s.card).2.bytes.read base n.toNat), k⟩ ∧ Idle view k ∧
      (view k).2.bytes = (view s.card).2.bytes
  write : ∀ (base n buf : UInt32) (s : Machine κ), Idle view s.card →
    ∃ k, pmon.newSdcardWrite base n buf s = ⟨s.mem, k⟩ ∧ Idle view k ∧
      (view k).2.bytes = (view s.card).2.bytes.write base (s.mem.read buf n.toNat)

section Sectors
variable {a b pos left buf : UInt32} {n k : Nat} {c : Sectors}

theorem toNat_and_511 (a : UInt32) : (a &&& 511).toNat = a.toNat % 512 := by
  rw [UInt32.toNat_and]
  exact Nat.and_two_pow_sub_one_eq_mod a.toNat 9

theorem toNat_shiftRight_9 (a : UInt32) : (a >>> 9).toNat = a.toNat / 512 := by
  rw [UInt32.toNat_shiftRight]
  exact Nat.shiftRight_eq_div_pow a.toNat 9

theorem sector_eq_iff : a >>> 9 = b >>> 9 ↔ a.toNat / 512 = b.toNat / 512 := by
  rw [← UInt32.toNat_inj, toNat_shiftRight_9, toNat_shiftRight_9]

theorem toNat_chunk (pos left : UInt32) :
    (chunk pos left).toNat = min (512 - pos.toNat % 512) left.toNat := by
  have hoff : (512 - (pos &&& 511)).toNat = 512 - pos.toNat % 512 := by
    have hle : pos &&& 511 ≤ 512 := by
      rw [UInt32.le_iff_toNat_le, toNat_and_511]
      exact Nat.le_of_lt (Nat.mod_lt pos.toNat (show 0 < 512 by omega))
    rw [UInt32.toNat_sub_of_le _ _ hle, toNat_and_511]
    rfl
  rw [chunk]
  split_ifs with h
  · rw [UInt32.lt_iff_toNat_lt, hoff] at h
    omega
  · rw [UInt32.lt_iff_toNat_lt, hoff] at h
    omega

theorem chunk_le (pos left : UInt32) : (chunk pos left).toNat ≤ left.toNat := by
  rw [toNat_chunk]
  omega

theorem toNat_sub_chunk (pos left : UInt32) :
    (left - chunk pos left).toNat = left.toNat - (chunk pos left).toNat :=
  UInt32.toNat_sub_of_le _ _ (UInt32.le_iff_toNat_le.mpr (chunk_le pos left))

theorem chunkLoop_rule {κ : Type}
    {round : UInt32 → UInt32 → UInt32 → Machine κ → Option (Machine κ)}
    {I : UInt32 → UInt32 → UInt32 → Machine κ → Prop}
    {P : UInt32 → UInt32 → UInt32 → Machine κ → Machine κ → Prop}
    (hdone : ∀ buf pos s, I buf pos 0 s → P buf pos 0 s s)
    (hround : ∀ buf pos left s, 0 < left.toNat → I buf pos left s →
      ∃ s₁, round buf pos (chunk pos left) s = some s₁ ∧
        I (buf + chunk pos left) (pos + chunk pos left) (left - chunk pos left) s₁ ∧
        ∀ s', P (buf + chunk pos left) (pos + chunk pos left) (left - chunk pos left) s₁ s' →
          P buf pos left s s')
    {s : Machine κ} {fuel : Nat} (hfuel : left.toNat ≤ fuel) (hI : I buf pos left s) :
    ∃ s', chunkLoop round fuel buf pos left s = some s' ∧ P buf pos left s s' := by
  induction fuel generalizing buf pos left s with
  | zero =>
    obtain rfl : left = 0 := UInt32.toNat_inj.mp (Nat.le_zero.mp hfuel)
    exact ⟨s, rfl, hdone buf pos s hI⟩
  | succ fuel ih =>
    rw [chunkLoop]
    by_cases hzero : left = 0
    · subst hzero
      exact ⟨s, rfl, hdone buf pos s hI⟩
    · have hleft : 0 < left.toNat := Nat.pos_of_ne_zero fun h => hzero (UInt32.toNat_inj.mp h)
      have hmod := Nat.mod_lt pos.toNat (show 0 < 512 by omega)
      have hchunk := toNat_chunk pos left
      have hless : (left - chunk pos left).toNat ≤ fuel := by
        rw [toNat_sub_chunk]
        omega
      obtain ⟨s₁, hs₁, hI₁, hP⟩ := hround buf pos left s hleft hI
      obtain ⟨s', hrun, hrest⟩ := ih hless hI₁
      refine ⟨s', ?_, hP s' hrest⟩
      rw [if_neg hzero]
      dsimp only
      rw [hs₁]
      exact hrun

theorem bytes_eq_sector (hk : pos.toNat % 512 + k < 512) :
    c.bytes.bytes pos k = (c (pos >>> 9)).get (pos.toNat % 512 + k) := by
  have hpos := pos.toNat_lt
  have htoNat : (pos + UInt32.ofNat k).toNat = pos.toNat + k := toNat_add_ofNat (by omega)
  have hsector : (pos + UInt32.ofNat k) >>> 9 = pos >>> 9 := by
    rw [sector_eq_iff, htoNat]
    omega
  rw [bytes, Sectors.bytes, hsector, toNat_and_511, htoNat]
  congr 1
  omega

theorem bytes_update (hpos : pos.toNat % 512 = 0) (mem : Device) :
    Sectors.bytes (Function.update c (pos >>> 9) (mem.read buf 512)) =
      c.bytes.fill pos 512 (mem.bytes buf) := by
  funext a
  have ha := a.toNat_lt
  have hpos' := pos.toNat_lt
  have hin : a >>> 9 = pos >>> 9 ↔ (a - pos).toNat < 512 := by
    rw [sector_eq_iff, UInt32.toNat_sub]
    omega
  simp only [fill_apply, Sectors.bytes, Function.update_apply, ← hin]
  split_ifs with h
  · have hoff : a.toNat % 512 = (a - pos).toNat := by
      rw [sector_eq_iff] at h
      rw [UInt32.toNat_sub]
      omega
    rw [toNat_and_511, hoff, get_read _ _ (hin.mp h)]
  · rfl

theorem rest_le (hbuf : buf.toNat + left.toNat ≤ 2 ^ 32) :
    (buf + chunk pos left).toNat + (left - chunk pos left).toNat ≤ 2 ^ 32 := by
  have hle := chunk_le pos left
  rw [toNat_sub_chunk, UInt32.toNat_add]
  omega

theorem apart_rest {base : UInt32} (h : Apart buf left.toNat base n) :
    Apart (buf + chunk pos left) (left - chunk pos left).toNat base n := by
  have hdrop := h.drop (chunk_le pos left)
  rwa [UInt32.ofNat_toNat, ← toNat_sub_chunk] at hdrop

theorem fill_chunk {d : Device} (f : Nat → UInt8) :
    (d.fill buf (chunk pos left).toNat f).fill (buf + chunk pos left) (left - chunk pos left).toNat
      (fun i => f ((chunk pos left).toNat + i)) = d.fill buf left.toNat f := by
  have hle := chunk_le pos left
  have hleft := left.toNat_lt
  have h := @fill_fill d buf (chunk pos left).toNat (left - chunk pos left).toNat f
    (by rw [toNat_sub_chunk]; omega)
  rw [UInt32.ofNat_toNat, toNat_sub_chunk, Nat.add_sub_cancel' hle] at h
  rwa [toNat_sub_chunk]

theorem bytes_add_toNat (d : Device) (base once : UInt32) :
    d.bytes (base + once) = fun i => d.bytes base (once.toNat + i) := by
  funext i
  rw [← bytes_add, UInt32.ofNat_toNat]

end Sectors

section Read
variable {κ : Type} {pmon : Pmon κ} {view : κ → Stage × Sectors} {buf pos left : UInt32}
  {s : Machine κ}

theorem sdreadRound_eq (h : Reads pmon view) (hidle : Idle view s.card)
    (hbuf : buf.toNat + left.toNat ≤ 2 ^ 32) (pos : UInt32) :
    ∃ k, sdreadRound pmon buf pos (chunk pos left) s =
      some ⟨(s.mem.write readIndexbuf ((view s.card).2 (pos >>> 9))).fill buf (chunk pos left).toNat
        ((view s.card).2.bytes.bytes pos), k⟩ ∧ Idle view k ∧ (view k).2 = (view s.card).2 := by
  have hchunk := toNat_chunk pos left
  have hmod := Nat.mod_lt pos.toNat (show 0 < 512 by omega)
  have hindex : (readIndexbuf + (pos &&& 511)).toNat = 2685403648 + pos.toNat % 512 := by
    rw [UInt32.toNat_add, toNat_and_511, readIndexbuf, show (0xa0100200 : UInt32).toNat = 2685403648
      from rfl]
    omega
  obtain ⟨k, hread, hk⟩ := h (pos >>> 9) readIndexbuf s hidle
  refine ⟨k, ?_, hk⟩
  rw [sdreadRound, hread, memcopy_eq (by omega) (by omega)]
  refine congrArg (fun mem => some (Machine.mk mem k)) (fill_congr fun i hi => ?_)
  rw [bytes_eq_sector (by omega), bytes_add_toNat, toNat_and_511]
  exact bytes_fill (by omega) (by omega)

theorem sdread_spec (h : Reads pmon view) (hqemu : Emulates pmon view) (hidle : Idle view s.card)
    (hbuf : buf.toNat + left.toNat ≤ 2 ^ 32) (hapart : Apart buf left.toNat readIndexbuf 512)
    (pos : UInt32) :
    ∃ s', sdread pmon buf pos left s = some (left, s') ∧ Idle view s'.card ∧
      (view s'.card).2.bytes = (view s.card).2.bytes ∧ SameOff readIndexbuf 512 s'.mem
        (s.mem.write buf ((view s.card).2.bytes.read pos left.toNat)) := by
  rw [sdread]
  split_ifs with hmachine
  · obtain ⟨k, hread, hk, hbytes⟩ := hqemu.read buf pos left s hidle
    exact ⟨_, rfl, hread ▸ ⟨hk, hbytes, fun _ _ => rfl⟩⟩
  rw [write_eq_fill, fill_get_read]
  refine (chunkLoop_rule
    (I := fun buf pos left s => Idle view s.card ∧ buf.toNat + left.toNat ≤ 2 ^ 32 ∧
      Apart buf left.toNat readIndexbuf 512)
    (P := fun buf pos left s s' => Idle view s'.card ∧ (view s'.card).2 = (view s.card).2 ∧
      SameOff readIndexbuf 512 s'.mem
        (s.mem.fill buf left.toNat ((view s.card).2.bytes.bytes pos)))
    (fun buf pos s hI => ⟨hI.1, rfl, by simp [SameOff]⟩)
    (fun buf pos left s _ hI => ?_) (Nat.le_refl _) ⟨hidle, hbuf, hapart⟩).imp fun s' hs' =>
      ⟨by rw [hs'.1]; rfl, hs'.2.1, congrArg Sectors.bytes hs'.2.2.1, hs'.2.2.2⟩
  obtain ⟨hidle, hbuf, hapart⟩ := hI
  obtain ⟨k, hround, hk, hsectors⟩ := sdreadRound_eq h hidle hbuf pos
  refine ⟨_, hround, ⟨hk, rest_le hbuf, apart_rest hapart⟩, fun s' hs' => ?_⟩
  obtain ⟨hidle', hsectors', hmem⟩ := hs'
  refine ⟨hidle', hsectors'.trans hsectors, hmem.trans ?_⟩
  change SameOff readIndexbuf 512 (Device.fill _ _ _ ((view k).2.bytes.bytes _)) _
  rw [hsectors, bytes_add_toNat, fill_chunk]
  exact sameOff_fill.fill

end Read

section Write
variable {κ : Type} {pmon : Pmon κ} {view : κ → Stage × Sectors} {limit fuel : Nat}
  {buf pos left : UInt32} {s : Machine κ}

section
variable (h : Serves pmon view limit) (hfuel : limit < fuel) (hidle : Idle view s.card)
  (hbuf : buf.toNat + left.toNat ≤ 2 ^ 32)
include h hfuel hidle hbuf

theorem sdwriteRound_eq (pos : UInt32) : ∃ k, sdwriteRound pmon fuel buf pos (chunk pos left) s =
      some ⟨s.mem.fill (writeIndexbuf + (pos &&& 511)) (chunk pos left).toNat
        (s.mem.bytes buf), k⟩ ∧
    Idle view k ∧ (view k).2 = Function.update (view s.card).2 (pos >>> 9)
      ((s.mem.fill (writeIndexbuf + (pos &&& 511)) (chunk pos left).toNat
        (s.mem.bytes buf)).read writeIndexbuf 512) := by
  have hchunk := toNat_chunk pos left
  have hmod := Nat.mod_lt pos.toNat (show 0 < 512 by omega)
  have hindex : (writeIndexbuf + (pos &&& 511)).toNat = 2685404160 + pos.toNat % 512 := by
    rw [UInt32.toNat_add, toNat_and_511, writeIndexbuf, show (0xa0100400 : UInt32).toNat =
      2685404160 from rfl]
    omega
  rw [sdwriteRound, memcopy_eq (by omega) (by omega)]
  obtain ⟨response, k, hwrite, hk⟩ := writeSingleBlock_spec h (pos >>> 9) writeIndexbuf
    (s := ⟨s.mem.fill (writeIndexbuf + (pos &&& 511)) (chunk pos left).toNat (s.mem.bytes buf),
      s.card⟩) hidle hfuel
  exact ⟨k, by rw [hwrite]; rfl, hk⟩

theorem sdwriteRound_aligned (hpos : pos.toNat % 512 = 0) (hchunk : (chunk pos left).toNat = 512) :
    ∃ k, sdwriteRound pmon fuel buf pos (chunk pos left) s =
        some ⟨s.mem.fill writeIndexbuf 512 (s.mem.bytes buf), k⟩ ∧ Idle view k ∧
      (view k).2.bytes = (view s.card).2.bytes.fill pos 512 (s.mem.bytes buf) := by
  have hoff : pos &&& 511 = 0 := UInt32.toNat_inj.mp ((toNat_and_511 pos).trans hpos)
  obtain ⟨k, hround, hk, hsectors⟩ := sdwriteRound_eq h hfuel hidle hbuf pos
  rw [hoff, UInt32.add_zero, hchunk] at hround hsectors
  refine ⟨k, hround, hk, ?_⟩
  rw [hsectors, bytes_update hpos]
  exact fill_congr fun i hi => bytes_fill (by omega) hi

end

theorem sdwrite_aligned (h : Serves pmon view limit) (hfuel : limit < fuel)
    (hidle : Idle view s.card) (hboard : isQEMU s.mem = false)
    (hbuf : buf.toNat + left.toNat ≤ 2 ^ 32) (hapart : Apart buf left.toNat writeIndexbuf 512)
    (hpos : pos.toNat % 512 = 0) (hleft : left.toNat % 512 = 0) :
    ∃ s', sdwrite pmon fuel buf pos left s = some (left, s') ∧ Idle view s'.card ∧
      (view s'.card).2.bytes = (view s.card).2.bytes.write pos (s.mem.read buf left.toNat) ∧
      SameOff writeIndexbuf 512 s'.mem s.mem := by
  rw [sdwrite, if_neg (by rw [hboard]; decide), write_eq_fill, fill_get_read]
  refine (chunkLoop_rule
    (I := fun buf pos left s => Idle view s.card ∧ buf.toNat + left.toNat ≤ 2 ^ 32 ∧
      Apart buf left.toNat writeIndexbuf 512 ∧ pos.toNat % 512 = 0 ∧ left.toNat % 512 = 0)
    (P := fun buf pos left s s' => Idle view s'.card ∧
      (view s'.card).2.bytes = (view s.card).2.bytes.fill pos left.toNat (s.mem.bytes buf) ∧
      SameOff writeIndexbuf 512 s'.mem s.mem)
    (fun buf pos s hI => ⟨hI.1, by simp, fun _ _ => rfl⟩)
    (fun buf pos left s hnonzero hI => ?_) (Nat.le_refl _)
      ⟨hidle, hbuf, hapart, hpos, hleft⟩).imp fun s' hs' => ⟨by rw [hs'.1]; rfl, hs'.2⟩
  obtain ⟨hidle, hbuf, hapart, hpos, hleft⟩ := hI
  have hchunk : (chunk pos left).toNat = 512 := by
    rw [toNat_chunk]
    omega
  have hsub := toNat_sub_chunk pos left
  have hpos' : (pos + chunk pos left).toNat % 512 = 0 := by
    rw [UInt32.toNat_add]
    omega
  obtain ⟨k, hround, hk, hbytes⟩ := sdwriteRound_aligned h hfuel hidle hbuf hpos hchunk
  refine ⟨_, hround, ⟨hk, rest_le hbuf, apart_rest hapart, hpos', by omega⟩, fun s' hs' => ?_⟩
  obtain ⟨hidle', hrest, hsame⟩ := hs'
  have hkept : ∀ i < (left - chunk pos left).toNat, (s.mem.fill writeIndexbuf 512
      (s.mem.bytes buf)).bytes (buf + chunk pos left) i =
        s.mem.bytes (buf + chunk pos left) i := fun i hi =>
    sameOff_fill.bytes (apart_rest hapart) hi (by omega)
  refine ⟨hidle', ?_, hsame.trans sameOff_fill⟩
  rw [hrest, hbytes, fill_congr hkept, bytes_add_toNat, ← hchunk, fill_chunk]

theorem fill_const {d : Device} {base : UInt32} {n : Nat} {v : UInt8} {f : Nat → UInt8}
    (hd : d = fun _ => v)
    (hf : ∀ i, f i = v) : d.fill base n f = fun _ => v := by
  funext a
  rw [fill_apply, hf, hd, ite_self]

/-- With one byte everywhere in memory every sector that is written gets that byte. -/
theorem sdwrite_const {v : UInt8} (h : Serves pmon view limit) (hfuel : limit < fuel)
    (hidle : Idle view s.card) (hboard : isQEMU s.mem = false)
    (hbuf : buf.toNat + left.toNat ≤ 2 ^ 32) (hmem : s.mem = fun _ => v) :
    ∃ s', sdwrite pmon fuel buf pos left s = some (left, s') ∧
      ∀ a : UInt32, (∃ i < left.toNat, a >>> 9 = (pos + UInt32.ofNat i) >>> 9) →
      (view s'.card).2.bytes a = v := by
  rw [sdwrite, if_neg (by rw [hboard]; decide)]
  refine (chunkLoop_rule
    (I := fun buf pos left s => Idle view s.card ∧ buf.toNat + left.toNat ≤ 2 ^ 32 ∧
      s.mem = fun _ => v)
    (P := fun buf pos left s s' => ∀ a : UInt32, ((view s.card).2.bytes a = v ∨
      ∃ i < left.toNat, a >>> 9 = (pos + UInt32.ofNat i) >>> 9) → (view s'.card).2.bytes a = v)
    (fun buf pos s _ a ha => ha.resolve_right fun ⟨i, hi, _⟩ => Nat.not_lt_zero i hi)
    (fun buf pos left s hnonzero hI => ?_) (Nat.le_refl _) ⟨hidle, hbuf, hmem⟩).imp fun s' hs' =>
      ⟨by rw [hs'.1]; rfl, fun a ha => hs'.2 a (.inr ha)⟩
  obtain ⟨hidle, hbuf, hmem⟩ := hI
  have hchunk := toNat_chunk pos left
  have hmod := Nat.mod_lt pos.toNat (show 0 < 512 by omega)
  have hsub := toNat_sub_chunk pos left
  have hconst : ∀ i, s.mem.bytes buf i = v := fun i => congrFun hmem (buf + UInt32.ofNat i)
  obtain ⟨k, hround, hk, hsectors⟩ := sdwriteRound_eq h hfuel hidle hbuf pos
  rw [fill_const hmem hconst] at hround hsectors
  refine ⟨_, hround, ⟨hk, rest_le hbuf, rfl⟩, fun s' hs' a ha => hs' a ?_⟩
  rw [hsectors]
  by_cases hsame : a >>> 9 = pos >>> 9
  · -- the sector of this round
    left
    have hoff : (a &&& 511).toNat < 512 := by
      rw [toNat_and_511]
      exact Nat.mod_lt _ (by omega)
    simp only [Sectors.bytes, Function.update_apply, if_pos hsame]
    exact get_read _ _ hoff
  · refine ha.imp (fun hv => ?_) fun ⟨i, hi, hsector⟩ => ⟨i - (chunk pos left).toNat, ?_⟩
    · simpa only [Sectors.bytes, Function.update_apply, if_neg hsame] using hv
    · have hbehind : (chunk pos left).toNat ≤ i := by
        refine Nat.not_lt.mp fun hlt => hsame (hsector.trans (sector_eq_iff.mpr ?_))
        have hpos := pos.toNat_lt
        rw [toNat_add_ofNat (by omega)]
        omega
      rw [UInt32.add_assoc, ← UInt32.ofNat_toNat (x := chunk pos left), ← UInt32.ofNat_add,
        UInt32.ofNat_toNat]
      refine ⟨by omega, hsector.trans ?_⟩
      rw [Nat.add_sub_cancel' hbehind]

/-- On the board `sdwrite` does what it should, whatever the memory and the card hold, exactly if it
is asked for whole sectors: elsewhere it puts into the rest of a sector what its own buffer has left
over. -/
theorem sdwrite_exact_iff (h : Serves pmon view limit) (hany : ∀ c, ∃ k, view k = (.idle 0, c))
    (hfuel : limit < fuel) {base n : UInt32} (hbuf : buf.toNat + n.toNat ≤ 2 ^ 32)
    (hapart : Apart buf n.toNat writeIndexbuf 512) :
    (∀ s, isQEMU s.mem = false → Idle view s.card →
      ∃ s', sdwrite pmon fuel buf base n s = some (n, s') ∧
        (view s'.card).2.bytes = (view s.card).2.bytes.write base (s.mem.read buf n.toNat)) ↔
      n = 0 ∨ base.toNat % 512 = 0 ∧ n.toNat % 512 = 0 := by
  constructor
  · intro hexact
    by_contra hnot
    obtain ⟨hn, haligned⟩ := not_or.mp hnot
    have hpos : 0 < n.toNat := Nat.pos_of_ne_zero fun h => hn (UInt32.toNat_inj.mp h)
    -- ones in memory, zeroes on the card
    obtain ⟨k, hk⟩ := hany fun _ => .zero
    have hidle : Idle view k := ⟨0, by omega, congrArg Prod.fst hk⟩
    have hboard : isQEMU (fun _ => 1) = false := by decide
    obtain ⟨s₁, hrun, hspec⟩ := hexact ⟨fun _ => 1, k⟩ hboard hidle
    obtain ⟨s₂, hrun' : sdwrite pmon fuel buf base n _ = _, hones⟩ :=
      sdwrite_const (v := 1) (s := ⟨fun _ => 1, k⟩) h hfuel hidle
      hboard hbuf rfl
    obtain rfl : s₁ = s₂ := congrArg Prod.snd (Option.some.inj (hrun.symm.trans hrun'))
    have hbase := base.toNat_lt
    have hn' := n.toNat_lt
    -- a byte in front of the range or behind it, in a sector that is touched
    obtain ⟨a, hout, i, hi, htouched⟩ : ∃ a : UInt32, ¬ (a - base).toNat < n.toNat ∧
        ∃ i < n.toNat, a >>> 9 = (base + UInt32.ofNat i) >>> 9 := by
      simp only [sector_eq_iff, UInt32.toNat_sub, UInt32.toNat_add, UInt32.toNat_ofNat']
      by_cases hfirst : base.toNat % 512 = 0
      · have hlast : n.toNat % 512 ≠ 0 := fun hlast => haligned ⟨hfirst, hlast⟩
        refine ⟨base + n, ?_, n.toNat - 1, by omega, ?_⟩
        · rw [UInt32.toNat_add]
          omega
        · rw [UInt32.toNat_add]
          omega
      · have hbelow : (base - 1).toNat = base.toNat - 1 :=
          UInt32.toNat_sub_of_le _ _ (UInt32.le_iff_toNat_le.mpr (show 1 ≤ base.toNat by omega))
        exact ⟨base - 1, by omega, 0, hpos, by omega⟩
    have hone := hones a ⟨i, hi, htouched⟩
    rw [hspec, write_eq_fill, fill_apply, if_neg hout] at hone
    simp [hk, Sectors.bytes] at hone
  · rintro (rfl | ⟨hbase, hn⟩) s hboard hidle
    · refine ⟨s, ?_, by rw [write_eq_fill]; exact fill_zero.symm⟩
      rw [sdwrite, if_neg (by rw [hboard]; decide)]
      rfl
    · obtain ⟨s', hrun, -, hbytes, -⟩ := sdwrite_aligned h hfuel hidle hboard hbuf hapart hbase hn
      exact ⟨s', hrun, hbytes⟩

end Write

def Sectors.ofBytes (d : Device) : Sectors := fun a => .ofFn fun i => d (a <<< 9 + UInt32.ofNat i)

theorem Sectors.bytes_ofBytes (d : Device) : (ofBytes d).bytes = d := by
  funext a
  have ha := a.toNat_lt
  have hmod := Nat.mod_lt a.toNat (show 0 < 512 by omega)
  have haddr : a >>> 9 <<< 9 + UInt32.ofNat (a &&& 511).toNat = a := by
    rw [← UInt32.toNat_inj, UInt32.toNat_add, UInt32.toNat_shiftLeft, toNat_shiftRight_9,
      UInt32.toNat_ofNat', toNat_and_511, Nat.shiftLeft_eq]
    simp only [UInt32.reduceToNat, Nat.reduceMod, Nat.reducePow]
    omega
  rw [Sectors.bytes, ofBytes, Buffer.get_ofFn, if_pos (by rwa [toNat_and_511]), haddr]

/-- A card that refuses two commands after each block and is busy for three reads. -/
def slowCard : Pmon (Stage × Sectors) where
  newSdcardRead buf base n s := { s with mem := s.mem.write buf (s.card.2.bytes.read base n.toNat) }
  newSdcardWrite base n buf s :=
    { s with card := (s.card.1, .ofBytes (s.card.2.bytes.write base (s.mem.read buf n.toNat))) }
  readSingleBlock a buf s := { s with mem := s.mem.write buf (s.card.2 a) }
  flashWritebCmd _ k :=
    match k.1 with
    | .done => (.idle 2, k.2)
    | _ => k
  sd2ByteWrite w k :=
    match k.1 with
    | .receiving a l =>
      if l.length < 512 then (.receiving a (l ++ [(w >>> 8).toUInt8, w.toUInt8]), k.2)
      else (.answering, Function.update k.2 a (.ofFn fun i => l.getD i 0))
    | _ => k
  sdWrite _ k :=
    match k.1 with
    | .selected a => (.receiving a [], k.2)
    | _ => k
  sdRead k :=
    match k.1 with
    | .answering => (0xffe5, (.busy 3, k.2))
    | .busy (r + 1) => (0, (.busy r, k.2))
    | .busy 0 => (0xffff, (.done, k.2))
    | _ => (0xffff, k)
  sdCmdWrite _ a _ _ k :=
    match k.1 with
    | .idle (r + 1) => (0xffff, (.idle r, k.2))
    | .idle 0 => (0xff00, (.selected a, k.2))
    | _ => (0xffff, k)
  setCs _ k := k

theorem serves_slowCard : Serves slowCard id 3 where
  refuses := by
    rintro k r c a rfl
    exact ⟨show (0xffff : UInt32) ≠ 0xff00 by decide, rfl⟩
  accepts := by
    rintro k c a rfl
    exact ⟨rfl, rfl⟩
  clocked := by
    rintro k a c rfl
    rfl
  token := by
    rintro k a c rfl
    rfl
  data := by
    rintro k a l c w rfl hl
    exact if_pos hl
  checksum := by
    rintro k a l c rfl hl
    exact if_neg (by omega)
  answers := by
    rintro k c rfl
    exact ⟨3, Nat.le_refl 3, rfl⟩
  programs := by
    rintro k r c rfl
    exact ⟨show (0 : UInt16) ≠ 0xffff by decide, rfl⟩
  finishes := by
    rintro k c rfl
    exact ⟨rfl, rfl⟩
  deselected := by
    rintro k c rfl
    exact ⟨2, by omega, rfl⟩

theorem emulates_slowCard : Emulates slowCard id := by
  refine ⟨fun _ _ _ s hidle => ⟨s.card, rfl, hidle, rfl⟩,
    fun base n buf s hidle => ⟨_, rfl, hidle, ?_⟩⟩
  exact Sectors.bytes_ofBytes (s.card.2.bytes.write base (s.mem.read buf n.toNat))

theorem reads_slowCard : Reads slowCard id := fun _ _ s hidle => ⟨s.card, rfl, hidle, rfl⟩

theorem sdwrite_exact_block :
    (∀ s : Machine (Stage × Sectors), isQEMU s.mem = false → Idle id s.card →
      ∃ s', sdwrite slowCard 4 0xa0900000 512 4096 s = some (4096, s') ∧
        s'.card.2.bytes = s.card.2.bytes.write 512 (s.mem.read 0xa0900000 4096)) ∧
      ¬ ∀ s : Machine (Stage × Sectors), isQEMU s.mem = false → Idle id s.card →
        ∃ s', sdwrite slowCard 4 0xa0900000 512 100 s = some (100, s') ∧
          s'.card.2.bytes = s.card.2.bytes.write 512 (s.mem.read 0xa0900000 100) := by
  have hapart : Apart 0xa0900000 4096 writeIndexbuf 512 := apart_of_le (by decide) (by decide)
  have hany : ∀ c, ∃ k : Stage × Sectors, id k = (.idle 0, c) := fun c => ⟨(.idle 0, c), rfl⟩
  refine ⟨(sdwrite_exact_iff serves_slowCard hany (by decide) (by decide) hapart).mpr
    (.inr ⟨by decide, by decide⟩), fun h => ?_⟩
  exact absurd ((sdwrite_exact_iff serves_slowCard hany (by decide) (by decide)
    (hapart.mono (by decide) (Nat.le_refl _))).mp h) (by decide)

end Ucas.Epmon

import UcasOs.Lib.Fill
import Mathlib.Data.List.GetD

/-! `createimage` puts the boot block and the kernel into one image, and the boot block loads the
kernel from the card with a routine of PMON. What is in memory in the end is the kernel as its
program header describes it. -/

namespace Ucas.Boot
open Ucas.Lib Ucas.Lib.Device

inductive Fault
  | shortFile
  | overflow
  deriving DecidableEq, Repr

abbrev File := List UInt8

def bytesAt (f : File) (o n : Nat) : Buffer n := .ofFn fun i => f.getD (o + i) 0

structure Ehdr where
  ePhoff : UInt32
  ePhnum : UInt32
  deriving DecidableEq, Repr

structure Phdr where
  pOffset : UInt32
  pFilesz : UInt32
  pMemsz : UInt32
  deriving DecidableEq, Repr

def readExecFile (f : File) : Except Fault (Ehdr × Phdr) :=
  if f.length < 52 then .error .shortFile
  else
    let e := bytesAt f 0 52
    let ehdr : Ehdr := ⟨e.word 28, UInt32.ofNat ((e.get 44).toNat + 256 * (e.get 45).toNat)⟩
    if f.length < ehdr.ePhoff.toNat + 32 then .error .shortFile
    else
      let p := bytesAt f ehdr.ePhoff.toNat 32
      .ok (ehdr, ⟨p.word 4, p.word 16, p.word 20⟩)

def fread (f : File) (o n : Nat) (buffer : List UInt8) : Except Fault (List UInt8) :=
  let got := (f.drop o).take n
  if got.length ≤ buffer.length then .ok (got ++ buffer.drop got.length) else .error .overflow

def bzero (buffer : List UInt8) (o n : Nat) : Except Fault (List UInt8) :=
  if o + n ≤ buffer.length then .ok (buffer.take o ++ List.replicate n 0 ++ buffer.drop
    (o + n)) else .error .overflow

def writeAt (image : File) (o : Nat) (l : List UInt8) : File :=
  image.take o ++ List.replicate (o - image.length) 0 ++ l ++ image.drop (o + l.length)

def writeBootblock (image boot : File) (p : Phdr) : Except Fault File := do
  let buffer ← fread boot p.pOffset.toNat p.pFilesz.toNat (List.replicate (512 * 4) 0)
  return writeAt image 0 (buffer.take 512)

def writeKernel (image kernel : File) (p : Phdr) : Except Fault File := do
  let buffer ← fread kernel p.pOffset.toNat p.pMemsz.toNat (List.replicate (p.pMemsz.toNat * 4) 0)
  let buffer ← bzero buffer p.pFilesz.toNat (p.pMemsz - p.pFilesz).toNat
  return writeAt image 512 (buffer.take p.pMemsz.toNat)

def countKernelSectors (e : Ehdr) (p : Phdr) : UInt32 :=
  let i := (e.ePhnum * p.pMemsz).toInt32
  if i % 512 = 0 then (i >>> 9).toUInt32 else (i >>> 9 + 1).toUInt32

def recordKernelSectors (image : File) (numSec : UInt32) : File :=
  writeAt image 0x1f0 ((List.range 4).map (Buffer.wordByte numSec))

def createimage (boot kernel : File) : Except Fault File := do
  let (_, bootPhdr) ← readExecFile boot
  let (kernelEhdr, kernelPhdr) ← readExecFile kernel
  let numSec := countKernelSectors kernelEhdr kernelPhdr
  let image ← writeBootblock [] boot bootPhdr
  let image ← writeKernel image kernel kernelPhdr
  return recordKernelSectors image numSec

/-- The routines of PMON at `0x8007b980` and `0x8007b1cc`; the latter is given the card. -/
structure Pmon where
  printstr : UInt32 → Device → Device
  readSdCard : UInt32 → UInt32 → UInt32 → Device → Device → Device

/-- `main` of bootblock.S, with the address of `msg`: the memory it leaves and where it jumps. -/
def bootblock (pmon : Pmon) (msg : UInt32) (card mem : Device) : Device × UInt32 :=
  let mem := pmon.printstr msg mem
  let a0 : UInt32 := 0xa0800200
  let a1 : UInt32 := 0x200
  let a2 := (mem.read 0xa08001f0 4).word 0 <<< 9
  (pmon.readSdCard a0 a1 a2 card mem, 0xa0800200)

/-- From `0xa0800000` on, PMON's routines do to memory what they are for and no more. -/
structure Pmon.Serves (pmon : Pmon) (card : Device) : Prop where
  printstr : ∀ msg mem a, 0xa0800000 ≤ a → pmon.printstr msg mem a = mem a
  readSdCard : ∀ buf base n mem a, 0xa0800000 ≤ a →
    pmon.readSdCard buf base n card mem a = mem.write buf (card.read base n.toNat) a

section Files
variable {image l buffer : List UInt8} {f : File} {o n i : Nat}

theorem getD_take (l : List UInt8) (n i : Nat) :
    (l.take n).getD i 0 = if i < n then l.getD i 0 else 0 := by
  simp only [List.getD_eq_getElem?_getD, List.getElem?_take]
  split_ifs <;> rfl

theorem getD_append (l l' : List UInt8) (i : Nat) :
    (l ++ l').getD i 0 = if i < l.length then l.getD i 0 else l'.getD (i - l.length) 0 := by
  split_ifs with h
  · exact List.getD_append _ _ _ _ h
  · exact List.getD_append_right _ _ _ _ (Nat.not_lt.mp h)

theorem getD_zeroes (n i : Nat) : (List.replicate n (0 : UInt8)).getD i 0 = 0 := by
  rw [List.getD_eq_getElem?_getD, List.getElem?_getD_replicate_default_eq]

theorem length_writeAt (ho : o ≤ image.length) :
    (writeAt image o l).length = max image.length (o + l.length) := by
  simp only [writeAt, List.length_append, List.length_take, List.length_replicate, List.length_drop]
  omega

theorem getD_writeAt (ho : o ≤ image.length) : (writeAt image o l).getD i 0 =
    if o ≤ i ∧ i < o + l.length then l.getD (i - o) 0 else image.getD i 0 := by
  simp only [writeAt, getD_append, getD_take, getD_drop, getD_zeroes, List.length_append,
    List.length_take,
    List.length_replicate]
  rw [Nat.sub_eq_zero_of_le ho, Nat.min_eq_left ho]
  split_ifs <;> first | rfl | omega | (congr 1; omega)

theorem getD_fread {b : List UInt8} {m : Nat} (h : fread f o n (List.replicate m 0) = .ok b) :
    b.length = m ∧ ∀ i, b.getD i 0 = if i < n then f.getD (o + i) 0 else 0 := by
  have hgot : ((f.drop o).take n).length = min n (f.length - o) := by
    rw [List.length_take, List.length_drop]
  simp only [fread, hgot, List.length_replicate] at h
  split_ifs at h with hle
  cases h
  refine ⟨?_, fun i => ?_⟩
  · simp only [List.length_append, hgot, List.length_drop, List.length_replicate]
    omega
  · rw [getD_append, hgot, getD_take, getD_drop, getD_drop, getD_zeroes]
    split_ifs with h1 h2 h3
    · rfl
    · omega
    · exact (List.getD_eq_default _ _ (by omega)).symm
    · rfl

theorem fread_ok {m : Nat} (h : n ≤ m) : ∃ b, fread f o n (List.replicate m 0) = .ok b := by
  refine ⟨_, if_pos ?_⟩
  rw [List.length_take, List.length_replicate]
  omega

theorem getD_bzero {b : List UInt8} (h : bzero buffer o n = .ok b) :
    b.length = buffer.length ∧ ∀ i, b.getD i 0 = if o ≤ i ∧ i < o + n then 0 else buffer.getD i
    0 := by
  rw [bzero] at h
  split_ifs at h with hle
  cases h
  refine ⟨?_, fun i => ?_⟩
  · simp only [List.length_append, List.length_take, List.length_replicate, List.length_drop]
    omega
  · simp only [getD_append, getD_take, getD_drop, getD_zeroes, List.length_append, List.length_take,
      List.length_replicate]
    rw [Nat.min_eq_left (by omega)]
    split_ifs <;> first | rfl | omega | (congr 1; omega)

end Files

section Create
variable {boot kernel image image' : File} {p : Phdr} {e : Ehdr}

theorem writeBootblock_spec (h : p.pFilesz.toNat ≤ 2048) :
    ∃ image, writeBootblock [] boot p = .ok image ∧
    image.length = 512 ∧ ∀ i, image.getD i 0 =
      if i < 512 ∧ i < p.pFilesz.toNat then boot.getD (p.pOffset.toNat + i) 0 else 0 := by
  obtain ⟨b, hb⟩ := fread_ok (f := boot) (o := p.pOffset.toNat)
    (show p.pFilesz.toNat ≤ 512 * 4 by omega)
  obtain ⟨hlength, hget⟩ := getD_fread hb
  have hnil : (0 : Nat) ≤ ([] : List UInt8).length := Nat.zero_le _
  have htake : (b.take 512).length = 512 := by
    rw [List.length_take]
    omega
  refine ⟨writeAt [] 0 (b.take 512), ?_, ?_, fun i => ?_⟩
  · rw [writeBootblock, hb]
    rfl
  · rw [length_writeAt hnil, htake]
    rfl
  · rw [getD_writeAt hnil, htake, Nat.sub_zero, getD_take, hget]
    split_ifs <;> first | rfl | omega

theorem writeKernel_spec (h : p.pFilesz.toNat ≤ p.pMemsz.toNat) (himage : image.length = 512) :
    ∃ image', writeKernel image kernel p = .ok image' ∧ image'.length = 512 + p.pMemsz.toNat ∧
      ∀ i, image'.getD i 0 = if i < 512 then image.getD i 0
        else if i - 512 < p.pFilesz.toNat then kernel.getD (p.pOffset.toNat + (i - 512)) 0 else
        0 := by
  have hrest : (p.pMemsz - p.pFilesz).toNat = p.pMemsz.toNat - p.pFilesz.toNat :=
    UInt32.toNat_sub_of_le _ _ (UInt32.le_iff_toNat_le.mpr h)
  obtain ⟨b, hb⟩ := fread_ok (f := kernel) (o := p.pOffset.toNat)
    (show p.pMemsz.toNat ≤ p.pMemsz.toNat * 4 by omega)
  obtain ⟨hlength, hget⟩ := getD_fread hb
  have hz : bzero b p.pFilesz.toNat (p.pMemsz - p.pFilesz).toNat = .ok _ := if_pos (by omega)
  obtain ⟨hlength', hget'⟩ := getD_bzero hz
  generalize b.take p.pFilesz.toNat ++ _ ++ _ = b' at hz hlength' hget'
  have htake : (b'.take p.pMemsz.toNat).length = p.pMemsz.toNat := by
    rw [List.length_take]
    omega
  refine ⟨writeAt image 512 (b'.take p.pMemsz.toNat), ?_, ?_, fun i => ?_⟩
  · rw [writeKernel, hb]
    change (bzero b _ _ >>= _) = _
    rw [hz]
    rfl
  · rw [length_writeAt (by omega), htake]
    omega
  · rw [getD_writeAt (by omega), htake, getD_take, hget', hget]
    by_cases hi : i < 512
    · rw [if_neg (by omega), if_pos hi]
    · have hbehind : ∀ j, 512 ≤ j → image.getD j 0 = 0 := fun j hj => List.getD_eq_default _ _
        (by omega)
      rw [hbehind i (by omega)]
      split_ifs <;> first | rfl | omega

theorem toNat_shiftRight_toInt32 {x : UInt32} (h : x.toNat < 2 ^ 31) :
    (x.toInt32 >>> 9).toUInt32.toNat = x.toNat / 512 := by
  have hmsb : x.toBitVec.msb = false := by
    rw [BitVec.msb_eq_false_iff_two_mul_lt]
    change 2 * x.toNat < 2 ^ 32
    omega
  have hbits : (x.toInt32 >>> 9).toUInt32.toBitVec = x.toBitVec >>> 9 := by
    rw [Int32.toBitVec_toUInt32, Int32.toBitVec_shiftRight]
    exact BitVec.sshiftRight_eq_of_msb_false hmsb
  rw [← UInt32.toNat_toBitVec, hbits, BitVec.toNat_ushiftRight, UInt32.toNat_toBitVec]
  exact Nat.shiftRight_eq_div_pow x.toNat 9

theorem toInt32_mod_eq_zero_iff {x : UInt32} (h : x.toNat < 2 ^ 31) :
    x.toInt32 % 512 = 0 ↔ x.toNat % 512 = 0 := by
  have hint : x.toInt32.toInt = x.toNat :=
    BitVec.toInt_eq_toNat_of_lt (show 2 * x.toNat < 2 ^ 32 by omega)
  rw [← Int32.toInt_inj, Int32.toInt_mod, hint]
  change Int.tmod _ 512 = 0 ↔ _
  rw [Int.tmod_eq_emod_of_nonneg (by omega)]
  omega

theorem countKernelSectors_shift (h : e.ePhnum.toNat * p.pMemsz.toNat < 2 ^ 31) :
    (countKernelSectors e p <<< 9).toNat = (e.ePhnum.toNat * p.pMemsz.toNat + 511) / 512 * 512 := by
  have hx : (e.ePhnum * p.pMemsz).toNat = e.ePhnum.toNat * p.pMemsz.toNat := by
    rw [UInt32.toNat_mul, Nat.mod_eq_of_lt (by omega)]
  have hlt : (e.ePhnum * p.pMemsz).toNat < 2 ^ 31 := by rwa [hx]
  have hshift := toNat_shiftRight_toInt32 hlt
  have hcount : (countKernelSectors e p).toNat = (e.ePhnum.toNat * p.pMemsz.toNat + 511) / 512 := by
    rw [countKernelSectors]
    simp only [toInt32_mod_eq_zero_iff hlt]
    split_ifs with hmod
    · omega
    · have hsucc : ((e.ePhnum * p.pMemsz).toInt32 >>> 9 + 1).toUInt32 =
          ((e.ePhnum * p.pMemsz).toInt32 >>> 9).toUInt32 + 1 := UInt32.toBitVec_inj.mp rfl
      rw [hsucc, UInt32.toNat_add, hshift, hx]
      rw [hx] at hmod hlt
      simp only [show (1 : UInt32).toNat = 1 from rfl]
      omega
  rw [UInt32.toNat_shiftLeft, hcount, Nat.shiftLeft_eq]
  simp only [UInt32.reduceToNat, Nat.reduceMod, Nat.reducePow]
  omega

theorem createimage_spec {be : Ehdr} {bp : Phdr} (hb : readExecFile boot = .ok (be, bp))
    (hk : readExecFile kernel = .ok (e, p)) (hboot : bp.pFilesz.toNat ≤ 2048)
    (hkernel : p.pFilesz.toNat ≤ p.pMemsz.toNat) :
    ∃ image, createimage boot kernel = .ok image ∧ image.length = 512 + p.pMemsz.toNat ∧
      (∀ i, 512 ≤ i → image.getD i 0 = if i - 512 < p.pFilesz.toNat then kernel.getD
      (p.pOffset.toNat + (i - 512)) 0 else 0) ∧
      (∀ i < 4, image.getD (0x1f0 + i) 0 = Buffer.wordByte (countKernelSectors e p) i) ∧
      ∀ i < 512, i < 0x1f0 ∨ 0x1f4 ≤ i →
        image.getD i 0 = if i < bp.pFilesz.toNat then boot.getD (bp.pOffset.toNat + i) 0 else
        0 := by
  obtain ⟨i₁, h₁, hlen₁, hget₁⟩ := @writeBootblock_spec boot bp hboot
  obtain ⟨i₂, h₂, hlen₂, hget₂⟩ := @writeKernel_spec kernel i₁ p hkernel hlen₁
  have hget : ∀ i, (recordKernelSectors i₂ (countKernelSectors e p)).getD i 0 =
      if 0x1f0 ≤ i ∧ i < 0x1f4 then Buffer.wordByte (countKernelSectors e p) (i - 0x1f0) else
          i₂.getD i 0 := by
    intro i
    rw [recordKernelSectors, getD_writeAt (by omega), List.length_map, List.length_range]
    split_ifs with hi
    · simp [List.getD_eq_getElem?_getD, List.getElem?_range (show i - 0x1f0 < 4 by omega)]
    · rfl
  refine ⟨recordKernelSectors i₂ (countKernelSectors e p), ?_, ?_, fun i hi => ?_, fun i hi => ?_,
    fun i hi hout => ?_⟩
  · simp only [createimage, hb, hk, h₁, h₂, bind, Except.bind]
    rfl
  · rw [recordKernelSectors, length_writeAt (by omega), List.length_map, List.length_range]
    omega
  · rw [hget, if_neg (by omega), hget₂, if_neg (by omega)]
  · rw [hget, if_pos (by omega), Nat.add_sub_cancel_left]
  · rw [hget, if_neg (by omega), hget₂, if_pos hi, hget₁]
    simp only [hi, true_and]

end Create

theorem Pmon.Serves.bootblock {pmon : Pmon} {card : Device} (h : pmon.Serves card) (msg : UInt32)
    (mem : Device) {a : UInt32} (ha : 0xa0800000 ≤ a) : (Boot.bootblock pmon msg card mem).1 a =
      mem.fill 0xa0800200 ((mem.read 0xa08001f0 4).word 0 <<< 9).toNat (card.bytes 0x200) a := by
  have hword : (pmon.printstr msg mem).read 0xa08001f0 4 = mem.read 0xa08001f0 4 := by
    refine Buffer.ext fun i hi => ?_
    rw [get_read _ _ hi, get_read _ _ hi]
    refine h.printstr msg mem _ (UInt32.le_iff_toNat_le.mpr ?_)
    simp only [UInt32.toNat_add, UInt32.toNat_ofNat', UInt32.reduceToNat]
    omega
  rw [Boot.bootblock]
  simp only [h.readSdCard _ _ _ _ _ ha, hword]
  rw [write_eq_fill, fill_get_read, fill_apply, fill_apply, h.printstr msg mem a ha]

/-- The kernel that boots is the kernel that was linked: in memory there are the bytes of its
segment, with zeroes from `p_filesz` to `p_memsz`, whatever else the kernel's file has there,
whatever the memory held before and whatever follows the image on the card. The boot block is still
there, but for the number of sectors. PMON has put the first sector into memory. -/
theorem boot_loads_kernel {boot kernel : File} {be ke : Ehdr} {bp kp : Phdr}
    (hb : readExecFile boot = .ok (be, bp))
    (hk : readExecFile kernel = .ok (ke, kp)) (hboot : bp.pFilesz.toNat ≤ 2048)
    (hkernel : kp.pFilesz.toNat ≤ kp.pMemsz.toNat) (hphnum : 1 ≤ ke.ePhnum.toNat)
    (hsize : ke.ePhnum.toNat * kp.pMemsz.toNat ≤ 0x5f7ffe00) :
    ∃ image, createimage boot kernel = .ok image ∧
      ∀ (pmon : Pmon) (card mem : Device) (msg : UInt32), pmon.Serves card →
        (∀ i < image.length, card.bytes 0 i = image.getD i 0) →
        (∀ i < 512, mem.bytes 0xa0800000 i = card.bytes 0 i) →
        (bootblock pmon msg card mem).2 = 0xa0800200 ∧
        (∀ i < kp.pMemsz.toNat, (bootblock pmon msg card mem).1.bytes 0xa0800200 i =
          if i < kp.pFilesz.toNat then kernel.getD (kp.pOffset.toNat + i) 0 else 0) ∧
        ∀ i < 512, i < 0x1f0 ∨ 0x1f4 ≤ i → (bootblock pmon msg card mem).1.bytes 0xa0800000 i =
          if i < bp.pFilesz.toNat then boot.getD (bp.pOffset.toNat + i) 0 else 0 := by
  obtain ⟨image, himage, hlength, hsegment, hcount, hfirst⟩ := createimage_spec hb hk hboot hkernel
  refine ⟨image, himage, fun pmon card mem msg hserves hcard hloaded => ?_⟩
  have hmem : kp.pMemsz.toNat ≤ ke.ePhnum.toNat * kp.pMemsz.toNat := Nat.le_mul_of_pos_left _ hphnum
  have hshift := countKernelSectors_shift (e := ke) (p := kp) (by omega)
  -- the boot block finds the number of sectors where `createimage` has put it
  have hword : (mem.read 0xa08001f0 4).word 0 = countKernelSectors ke kp := by
    refine Buffer.word_of_bytes fun k hk => ?_
    rw [Nat.zero_add, get_read _ _ hk, show (0xa08001f0 : UInt32) = 0xa0800000 + UInt32.ofNat 0x1f0
      from rfl, bytes_add, hloaded _ (by omega), hcard _ (by omega), hcount k hk]
  generalize hn : (countKernelSectors ke kp <<< 9).toNat = n at hshift
  have hrun : ∀ base : UInt32, 0xa0800000 ≤ base.toNat → ∀ i, base.toNat + i < 2 ^ 32 →
      (bootblock pmon msg card mem).1.bytes base i =
        (mem.fill 0xa0800200 n (card.bytes 0x200)).bytes base i := by
    intro base hbase i hi
    rw [bytes, hserves.bootblock, hword, hn]
    · rfl
    · rw [UInt32.le_iff_toNat_le, UInt32.toNat_add, UInt32.toNat_ofNat']
      simp only [UInt32.reduceToNat]
      omega
  have hlow : (0xa0800200 : UInt32).toNat = 0xa0800200 := rfl
  have hlow' : (0xa0800000 : UInt32).toNat = 0xa0800000 := rfl
  refine ⟨rfl, fun i hi => ?_, fun i hi hout => ?_⟩
  · rw [hrun _ (by omega) i (by omega), bytes_fill (by omega) (by omega),
      show (0x200 : UInt32) = 0 + UInt32.ofNat 512 from rfl, bytes_add, hcard _ (by omega),
      hsegment _ (by omega), Nat.add_sub_cancel_left]
  · have hapart : Apart 0xa0800200 n 0xa0800000 512 := apart_of_le (by decide) (by omega)
    rw [hrun _ (by omega) i (by omega), sameOff_fill.bytes hapart.symm hi (by omega),
      hloaded i hi, hcard _ (by omega), hfirst i hi hout]

def oneSegment (filesz memsz : UInt32) (data : List UInt8) : File :=
  let words (l : List UInt32) : List UInt8 := l.flatMap fun w => (List.range 4).map
    (Buffer.wordByte w)
  List.replicate 28 0 ++ words [52, 0, 0, 0, 1, 0] ++ words [1, 84, 0, 0, filesz, memsz, 0, 0] ++
    data

def plainPmon : Pmon where
  printstr _ mem := mem
  readSdCard buf base n card mem := mem.write buf (card.read base n.toNat)

theorem boot_loads_small_kernel :
    ∃ image, createimage (oneSegment 3 3 [1, 2, 3]) (oneSegment 2 600 [7, 8, 9]) = .ok image ∧
    ∀ card mem : Device, (∀ i < image.length, card.bytes 0 i = image.getD i 0) →
      (∀ i < 512, mem.bytes 0xa0800000 i = card.bytes 0 i) →
      ∀ i < 600, (bootblock plainPmon 0 card mem).1.bytes 0xa0800200 i =
        if i = 0 then 7 else if i = 1 then 8 else 0 := by
  have hboot : readExecFile (oneSegment 3 3 [1, 2, 3]) = .ok (⟨52, 1⟩, ⟨84, 3, 3⟩) := rfl
  have hkernel : readExecFile (oneSegment 2 600 [7, 8, 9]) = .ok (⟨52, 1⟩, ⟨84, 2, 600⟩) := rfl
  obtain ⟨image, himage, hload⟩ := boot_loads_kernel hboot hkernel (by decide) (by decide)
    (by decide) (by decide)
  refine ⟨image, himage, fun card mem hcard hloaded i hi => ?_⟩
  have hserves : plainPmon.Serves card := ⟨fun _ _ _ _ => rfl, fun _ _ _ _ _ _ => rfl⟩
  rw [(hload plainPmon card mem 0 hserves hcard hloaded).2.1 i hi]
  by_cases hfile : i < 2
  · obtain rfl | rfl : i = 0 ∨ i = 1 := by omega
    · decide
    · decide
  · simp only [show ¬ i = 0 by omega, show ¬ i = 1 by omega, if_false]
    exact if_neg hfile

end Ucas.Boot

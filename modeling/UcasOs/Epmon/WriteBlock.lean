import UcasOs.Lib.Fill
import Mathlib.Logic.Function.Basic

/-! `Write_Single_Block` of libepmon, which hands one sector to the card over its serial interface.
The routines of PMON that libepmon calls by their addresses are parameters, and so is the card:
`Serves` is what is taken for granted of them. -/

namespace Ucas.Epmon
open Ucas.Lib Ucas.Lib.Device

structure Machine (κ : Type) where
  mem : Device
  card : κ

/-- The routines at `0x8007b1cc`, `0x8007aba4`, `0x80079cd8`, `0x800794c0`, `0x800794f8`,
`0x80079528`, `0x80079564` and `0x80079588`, and the store to the register at `0xbfe80005`. -/
structure Pmon (κ : Type) where
  newSdcardRead : UInt32 → UInt32 → UInt32 → Machine κ → Machine κ
  newSdcardWrite : UInt32 → UInt32 → UInt32 → Machine κ → Machine κ
  readSingleBlock : UInt32 → UInt32 → Machine κ → Machine κ
  flashWritebCmd : UInt8 → κ → κ
  sd2ByteWrite : UInt32 → κ → κ
  sdWrite : UInt32 → κ → κ
  sdRead : κ → UInt16 × κ
  sdCmdWrite : UInt32 → UInt32 → UInt32 → UInt32 → κ → UInt32 × κ
  setCs : UInt8 → κ → κ

section Source
variable {κ : Type} (pmon : Pmon κ)

/-- `for (temp=0; temp<MaximumTimes; temp++)`, with the number of rounds that are left. -/
def sendCmd24 (byteAddress : UInt32) : Nat → κ → κ
  | 0, k => k
  | tries + 1, k =>
    if (pmon.sdCmdWrite 24 byteAddress 1 1 k).1 = 0xff00 then
      (pmon.sdCmdWrite 24 byteAddress 1 1 k).2
    else sendCmd24 byteAddress tries (pmon.sdCmdWrite 24 byteAddress 1 1 k).2

def dataWord (writeBuffer : UInt32) (mem : Device) (temp : Nat) : UInt32 :=
  ((mem.bytes writeBuffer (2 * temp)).toUInt32 <<< 8) |||
    (mem.bytes writeBuffer (2 * temp + 1)).toUInt32

/-- `while (SD_Read()!=0xffff) {;}`. -/
def awaitReady : Nat → κ → Option κ
  | 0, _ => none
  | fuel + 1, k =>
    if (pmon.sdRead k).1 = 0xffff then some (pmon.sdRead k).2
    else awaitReady fuel (pmon.sdRead k).2

def writeSingleBlock (fuel : Nat) (byteAddress writeBuffer : UInt32) (s : Machine κ) :
    Option (UInt32 × Machine κ) := do
  let k := sendCmd24 pmon byteAddress 10 s.card
  let k := pmon.flashWritebCmd 0xff k
  let k := pmon.sdWrite 0x00fe k
  let k := (List.range 256).foldl
    (fun k temp => pmon.sd2ByteWrite (dataWord writeBuffer s.mem temp) k) k
  let k := pmon.sd2ByteWrite 0xffff k
  let (response, k) := pmon.sdRead k
  let k ← awaitReady pmon fuel k
  let k := pmon.setCs 0xff k
  let k := pmon.flashWritebCmd 0xff k
  return (response.toUInt32, { s with card := k })

end Source

abbrev Sectors := UInt32 → Buffer 512

/-- How far the card is in a block write: `idle` with the number of commands it will still refuse,
`busy` with the number of reads that will still find it so. -/
inductive Stage
  | idle (refusals : Nat)
  | selected (sector : UInt32)
  | receiving (sector : UInt32) (data : List UInt8)
  | answering
  | busy (reads : Nat)
  | done

/-- The card's side of a block write. It takes one of ten commands, stores the 512 bytes that
follow the start token when the checksum comes, and is busy for at most `limit` reads. -/
structure Serves {κ : Type} (pmon : Pmon κ) (view : κ → Stage × Sectors) (limit : Nat) : Prop where
  refuses : ∀ {k r c} a, view k = (.idle (r + 1), c) →
    (pmon.sdCmdWrite 24 a 1 1 k).1 ≠ 0xff00 ∧ view (pmon.sdCmdWrite 24 a 1 1 k).2 = (.idle r, c)
  accepts : ∀ {k c} a, view k = (.idle 0, c) →
    (pmon.sdCmdWrite 24 a 1 1 k).1 = 0xff00 ∧ view (pmon.sdCmdWrite 24 a 1 1 k).2 = (.selected a, c)
  clocked : ∀ {k a c}, view k = (.selected a, c) →
    view (pmon.flashWritebCmd 0xff k) = (.selected a, c)
  token : ∀ {k a c}, view k = (.selected a, c) → view (pmon.sdWrite 0x00fe k) = (.receiving a [], c)
  data : ∀ {k a l c} w, view k = (.receiving a l, c) → l.length < 512 →
    view (pmon.sd2ByteWrite w k) = (.receiving a (l ++ [(w >>> 8).toUInt8, w.toUInt8]), c)
  checksum : ∀ {k a l c}, view k = (.receiving a l, c) → l.length = 512 →
    view (pmon.sd2ByteWrite 0xffff k) =
      (.answering, Function.update c a (.ofFn fun i => l.getD i 0))
  answers : ∀ {k c}, view k = (.answering, c) → ∃ r ≤ limit, view (pmon.sdRead k).2 = (.busy r, c)
  programs : ∀ {k r c}, view k = (.busy (r + 1), c) →
    (pmon.sdRead k).1 ≠ 0xffff ∧ view (pmon.sdRead k).2 = (.busy r, c)
  finishes : ∀ {k c}, view k = (.busy 0, c) →
    (pmon.sdRead k).1 = 0xffff ∧ view (pmon.sdRead k).2 = (.done, c)
  deselected : ∀ {k c}, view k = (.done, c) →
    ∃ r < 10, view (pmon.flashWritebCmd 0xff (pmon.setCs 0xff k)) = (.idle r, c)

def Idle {κ : Type} (view : κ → Stage × Sectors) (k : κ) : Prop := ∃ r < 10, (view k).1 = .idle r

section Run
variable {κ : Type} {pmon : Pmon κ} {view : κ → Stage × Sectors} {limit : Nat}
  (h : Serves pmon view limit) {k : κ} {c : Sectors} (a buf : UInt32) (mem : Device)

theorem toUInt8_dataWord (m : Nat) :
    (dataWord buf mem m >>> 8).toUInt8 = mem.bytes buf (2 * m) ∧
      (dataWord buf mem m).toUInt8 = mem.bytes buf (2 * m + 1) := by
  have hhigh := (mem.bytes buf (2 * m)).toNat_lt
  have hlow := (mem.bytes buf (2 * m + 1)).toNat_lt
  have hword : (dataWord buf mem m).toNat =
      256 * (mem.bytes buf (2 * m)).toNat + (mem.bytes buf (2 * m + 1)).toNat := by
    rw [dataWord, UInt32.toNat_or, UInt32.toNat_shiftLeft, UInt8.toNat_toUInt32,
      UInt8.toNat_toUInt32, Nat.mod_eq_of_lt (by rw [Nat.shiftLeft_eq]; simp; omega)]
    exact (Nat.shiftLeft_add_eq_or_of_lt hlow _).symm.trans (by rw [Nat.shiftLeft_eq]; simp; omega)
  constructor
  · rw [← UInt8.toNat_inj, UInt32.toNat_toUInt8, UInt32.toNat_shiftRight, hword,
      Nat.shiftRight_eq_div_pow]
    simp
    omega
  · rw [← UInt8.toNat_inj, UInt32.toNat_toUInt8, hword]
    omega

include h

theorem sendCmd24_spec {tries r : Nat} (hr : r < tries) (hk : view k = (.idle r, c)) :
    view (sendCmd24 pmon a tries k) = (.selected a, c) := by
  induction tries generalizing k r with
  | zero => omega
  | succ tries ih =>
    rw [sendCmd24]
    cases r with
    | zero =>
      rw [if_pos (h.accepts a hk).1]
      exact (h.accepts a hk).2
    | succ r =>
      rw [if_neg (h.refuses a hk).1]
      exact ih (by omega) (h.refuses a hk).2

theorem sendData_spec {a : UInt32} (hk : view k = (.receiving a [], c)) {m : Nat} (hm : m ≤ 256) :
    view ((List.range m).foldl (fun k temp => pmon.sd2ByteWrite (dataWord buf mem temp) k) k) =
      (.receiving a ((List.range (2 * m)).map (mem.bytes buf)), c) := by
  induction m with
  | zero => exact hk
  | succ m ih =>
    obtain ⟨hhigh, hlow⟩ := toUInt8_dataWord buf mem m
    rw [List.range_succ, List.foldl_append, List.foldl_cons, List.foldl_nil,
      h.data _ (ih (by omega)) (by simp; omega), hhigh, hlow, Nat.mul_succ, List.range_succ,
      List.range_succ]
    simp

theorem awaitReady_spec {fuel r : Nat} (hr : r < fuel) (hk : view k = (.busy r, c)) :
    ∃ k', awaitReady pmon fuel k = some k' ∧ view k' = (.done, c) := by
  induction fuel generalizing k r with
  | zero => omega
  | succ fuel ih =>
    rw [awaitReady]
    cases r with
    | zero =>
      rw [if_pos (h.finishes hk).1]
      exact ⟨_, rfl, (h.finishes hk).2⟩
    | succ r =>
      rw [if_neg (h.programs hk).1]
      exact ih (by omega) (h.programs hk).2

theorem writeSingleBlock_spec {s : Machine κ} (hidle : Idle view s.card) {fuel : Nat}
    (hfuel : limit < fuel) :
    ∃ response k, writeSingleBlock pmon fuel a buf s = some (response, ⟨s.mem, k⟩) ∧
      Idle view k ∧ (view k).2 = Function.update (view s.card).2 a (s.mem.read buf 512) := by
  obtain ⟨r, hr, hstage⟩ := hidle
  have hselected := sendCmd24_spec h a hr (Prod.ext hstage rfl)
  have hdata := sendData_spec h buf s.mem (h.token (h.clocked hselected)) (Nat.le_refl 256)
  have hstored := h.checksum hdata (by simp)
  obtain ⟨r', hr', hbusy⟩ := h.answers hstored
  obtain ⟨k, hready, hdone⟩ := awaitReady_spec h (show r' < fuel by omega) hbusy
  obtain ⟨r'', hr'', hview⟩ := h.deselected hdone
  have hrun : ∃ response, writeSingleBlock pmon fuel a buf s =
      some (response, ⟨s.mem, pmon.flashWritebCmd 0xff (pmon.setCs 0xff k)⟩) := by
    rw [writeSingleBlock]
    simp only [hready, Option.bind_eq_bind, Option.bind_some]
    exact ⟨_, rfl⟩
  obtain ⟨response, hrun⟩ := hrun
  refine ⟨response, _, hrun, ⟨r'', hr'', congrArg Prod.fst hview⟩,
    (congrArg Prod.snd hview).trans (congrArg (Function.update _ a) (Buffer.ext fun i hi => ?_))⟩
  rw [Buffer.get_ofFn, if_pos hi, get_read _ _ hi, List.getD_eq_getElem?_getD]
  simp [hi]

end Run

end Ucas.Epmon

import UcasOs.Fs.Ops
import UcasOs.Epmon.Sd

/-! `read_block` and `write_block` over the card routines of libepmon. The file system's card, on
which a block is read and written in one piece, is what those routines make of the sectors of the
real one, given that PMON and the card do their part. -/

namespace Ucas.Fs
open Ucas.Lib Ucas.Lib.Device Ucas.Epmon

section Calls
variable {κ : Type} (pmon : Pmon κ) (fuel : Nat)

def sdCardRead (dest sdOffset size : UInt32) (s : Machine κ) : Option (Machine κ) :=
  (sdread pmon dest sdOffset size s).map Prod.snd

def sdCardWrite (dest sdOffset size : UInt32) (s : Machine κ) : Option (Machine κ) :=
  (sdwrite pmon fuel dest sdOffset size s).map Prod.snd

inductive BlockCall
  | read (blockIndex buffer : UInt32)
  | write (blockIndex buffer : UInt32)

namespace BlockCall

def buffer : BlockCall → UInt32
  | .read _ b | .write _ b => b

def onCard (c : BlockCall) (s : Machine κ) : Option (Machine κ) :=
  match c with
  | .read i b => sdCardRead pmon b (FileSys.sdOffset i) 4096 s
  | .write i b => sdCardWrite pmon fuel b (FileSys.sdOffset i) 4096 s

def onDevice (c : BlockCall) (s : Device × FileSys) : Device × FileSys :=
  match c with
  | .read i b => (s.1.write b (s.2.readBlock i), s.2)
  | .write i b => (s.1, s.2.writeBlock i (s.1.read b 4096))

def Clear (c : BlockCall) : Prop :=
  c.buffer.toNat + 4096 ≤ 2 ^ 32 ∧ Apart c.buffer 4096 readIndexbuf 1024

end BlockCall

end Calls

structure Carries {κ : Type} (view : κ → Stage × Sectors) (s : Machine κ) (t : Device × FileSys) :
    Prop where
  idle : Idle view s.card
  card : (view s.card).2.bytes = t.2.sd
  mem : SameOff readIndexbuf 1024 s.mem t.1

theorem toNat_sdOffset (i : UInt32) : (FileSys.sdOffset i).toNat % 512 = 0 := by
  rw [FileSys.sdOffset, UInt32.toNat_add, UInt32.toNat_mul]
  simp only [fsStartSdOffset, UInt32.reduceToNat]
  omega

theorem in_indexbufs {a : UInt32} (h : (a - writeIndexbuf).toNat < 512) :
    (a - readIndexbuf).toNat < 1024 := by
  have ha := a.toNat_lt
  simp only [readIndexbuf, writeIndexbuf, UInt32.toNat_sub, UInt32.reduceToNat] at h ⊢
  omega

section
variable {κ : Type} {pmon : Pmon κ} {view : κ → Stage × Sectors} {limit fuel : Nat}
  (hserves : Serves pmon view limit) (hreads : Reads pmon view) (hqemu : Emulates pmon view)
  (hfuel : limit < fuel) {s : Machine κ} {t : Device × FileSys}
include hserves hreads hqemu hfuel

theorem carries_step {c : BlockCall} (h : Carries view s t) (hc : c.Clear) :
    ∃ s', c.onCard pmon fuel s = some s' ∧ Carries view s' (c.onDevice t) := by
  obtain ⟨hbuf, hapart⟩ := hc
  obtain ⟨mem, fs⟩ := t
  have hsize : (4096 : UInt32).toNat = 4096 := rfl
  cases c with
  | read i b =>
    obtain ⟨s', hrun, hidle, hbytes, hmem⟩ := sdread_spec hreads hqemu h.idle
      (show b.toNat + (4096 : UInt32).toNat ≤ 2 ^ 32 from hbuf)
      (hapart.mono (Nat.le_refl _) (by omega)) (FileSys.sdOffset i)
    refine ⟨s', by rw [BlockCall.onCard, sdCardRead, hrun]; rfl, hidle, hbytes.trans h.card, ?_⟩
    rw [h.card] at hmem
    exact .trans (fun a ha => hmem a (by omega)) h.mem.fill
  | write i b =>
    obtain ⟨s', hrun, hidle, hbytes, hmem⟩ : ∃ s',
        sdwrite pmon fuel b (FileSys.sdOffset i) 4096 s = some (4096, s') ∧ Idle view s'.card ∧
        (view s'.card).2.bytes = (view s.card).2.bytes.write (FileSys.sdOffset i)
          (s.mem.read b 4096) ∧ SameOff writeIndexbuf 512 s'.mem s.mem := by
      cases hmachine : isQEMU s.mem with
      | true =>
        obtain ⟨k, hwrite, hk⟩ := hqemu.write (FileSys.sdOffset i) 4096 b s h.idle
        exact ⟨⟨s.mem, k⟩, by rw [sdwrite, if_pos hmachine, hwrite], hk.1, hk.2, fun _ _ => rfl⟩
      | false =>
        exact sdwrite_aligned hserves hfuel h.idle hmachine hbuf
          (fun a ha hin => hapart a ha (in_indexbufs hin)) (toNat_sdOffset i) (by decide)
    have hblock : (view s.card).2.bytes.write (FileSys.sdOffset i) (s.mem.read b 4096) =
        fs.sd.write (FileSys.sdOffset i) (mem.read b 4096) := by
      rw [write_eq_fill, write_eq_fill, fill_get_read, fill_get_read, h.card]
      exact fill_congr fun k hk => h.mem.bytes hapart hk (by decide)
    exact ⟨s', by rw [BlockCall.onCard, sdCardWrite, hrun]; rfl, hidle, hbytes.trans hblock,
      .trans (fun a ha => hmem a (mt in_indexbufs ha)) h.mem⟩

/-- Any sequence of calls of `read_block` and `write_block` returns, on QEMU and on the board, and
leaves the buffers and the card as the file system's own reads and writes of whole blocks do. -/
theorem block_calls_refine (h : Carries view s t) {calls : List BlockCall}
    (hclear : ∀ c ∈ calls, c.Clear) :
    ∃ s', calls.foldlM (fun s c => c.onCard pmon fuel s) s = some s' ∧
    Carries view s' (calls.foldl (fun t c => c.onDevice t) t) := by
  induction calls generalizing s t with
  | nil => exact ⟨s, rfl, h⟩
  | cons c calls ih =>
    obtain ⟨s₁, hrun, h₁⟩ := carries_step hserves hreads hqemu hfuel h (hclear c List.mem_cons_self)
    obtain ⟨s', hrest, h'⟩ := ih h₁ fun c hc => hclear c (List.mem_cons_of_mem _ hc)
    refine ⟨s', ?_, h'⟩
    rw [List.foldlM_cons, hrun]
    exact hrest

end

theorem block_read_back :
    ∃ s', [BlockCall.write 10 0xa0900000, .read 10 0xa0910000].foldlM
      (fun s c => c.onCard slowCard 4 s)
      ⟨fun a => if a = 0xa0900007 then 1 else 0, (.idle 0, fun _ => .zero)⟩ = some s' ∧
    s'.mem 0xa0910007 = 1 := by
  let s : Machine (Stage × Sectors) :=
    ⟨fun a => if a = 0xa0900007 then 1 else 0, (.idle 0, fun _ => .zero)⟩
  let t : Device × FileSys := (s.mem, { FileSys.blank with sd := s.card.2.bytes })
  have hs : Carries id s t := ⟨⟨0, by omega, rfl⟩, rfl, fun _ _ => rfl⟩
  have hclear : ∀ c ∈ [BlockCall.write 10 0xa0900000, .read 10 0xa0910000], c.Clear := by
    simp only [List.mem_cons, List.not_mem_nil, or_false, forall_eq_or_imp, forall_eq]
    exact ⟨⟨by decide, apart_of_le (by decide) (by decide)⟩, by decide, apart_of_le (by decide)
      (by decide)⟩
  obtain ⟨s', hrun, h'⟩ := block_calls_refine serves_slowCard reads_slowCard emulates_slowCard
    (show 3 < 4 by omega) hs hclear
  refine ⟨s', hrun, (h'.mem _ (by decide)).trans ?_⟩
  simp only [List.foldl_cons, List.foldl_nil, BlockCall.onDevice, FileSys.readBlock,
    FileSys.writeBlock]
  rw [read_write _ _ _ (by decide), write_eq_fill, fill_apply, if_pos (by decide), get_read _ _
    (by decide)]
  decide

end Ucas.Fs

import UcasOs.Fs.OneFile

/-! What `do_fread` gives back of what `do_fwrite` was given, on a file that nobody else uses: all
of it in order, as long as each call stays in its buffer of five blocks and the calls do not use up
the blocks. -/

namespace Ucas.Fs
open Ucas.Lib

inductive Io where
  | write (chunk : List UInt8)
  | read (length : UInt32)

namespace Io

def written : List Io → List UInt8
  | [] => []
  | .write chunk :: ios => chunk ++ written ios
  | .read _ :: ios => written ios

def asked : List Io → Nat
  | [] => 0
  | .write _ :: ios => asked ios
  | .read length :: ios => length.toNat + asked ios

def spanned (o len : Nat) : Nat := if len = 0 then 0 else (o + len - 1) / 4096 - o / 4096 + 1

/-- The calls, from write offset `w` and read offset `r` on, write fewer bytes than the direct table
has room for and read none that was not written; the bytes of each lie in at most five blocks. -/
def Legal : Nat → Nat → List Io → Prop
  | _, _, [] => True
  | w, r, .write chunk :: ios =>
    w + chunk.length < 49152 ∧ spanned w chunk.length ≤ 5 ∧ Legal (w + chunk.length) r ios
  | w, r, .read length :: ios =>
    r + length.toNat ≤ w ∧ spanned r length.toNat ≤ 5 ∧ Legal w (r + length.toNat) ios

def FitBuffers : Nat → Nat → List Io → Prop
  | _, _, [] => True
  | w, r, .write chunk :: ios => FitsBuffer w chunk.length ∧ FitBuffers (w + chunk.length) r ios
  | w, r, .read length :: ios => FitsBuffer r length.toNat ∧ FitBuffers w (r + length.toNat) ios

def blocks : Nat → List Io → Nat
  | _, [] => 0
  | w, .write chunk :: ios => blocksFor w chunk.length + blocks (w + chunk.length) ios
  | w, .read _ :: ios => blocks w ios

end Io

namespace FileSys

def doIo (fd : UInt32) (io : Io) (s : FileSys) : Except Fault (List UInt8 × FileSys) :=
  match io with
  | .write chunk => (fun r => ([], r.2)) <$> s.doFwrite fd chunk
  | .read length => s.doFread fd length

def runIo (fd : UInt32) : List Io → FileSys → Except Fault (List UInt8 × FileSys)
  | [], s => .ok ([], s)
  | io :: ios, s => do
    let (data, s) ← s.doIo fd io
    let (rest, s) ← s.runIo fd ios
    return (data ++ rest, s)

/-- A new file system, a new file in it, opened, and the calls on it: they return, and what they
read is as much as they asked for of what was written. -/
def ReadsBack (e e' : Env) (name : Text) (mode : UInt16) (access : UInt32) (ios : List Io)
    (s : FileSys) :
    Prop :=
  ∃ s₀ s₁ s₂ t fd data, s.doMkfs e = .ok s₀ ∧ s₀.doTouch e' name mode = .ok (0, s₁) ∧
    s₁.doFopen name access = .ok (fd, s₂) ∧
    s₂.runIo fd ios = .ok (data, t) ∧ data <+: Io.written ios ∧ data.length = Io.asked ios

end FileSys

section Run
variable {s : FileSys} {free r : Nat} {content : List UInt8}

theorem FileSys.runIo_cons {fd : UInt32} {io : Io} {ios : List Io} {data : List UInt8} {t : FileSys}
    (h : s.doIo fd io = .ok (data, t)) :
    s.runIo fd (io :: ios) = (fun r => (data ++ r.1, r.2)) <$> t.runIo fd ios := by
  rw [runIo, h]
  rfl

theorem FileSys.runIo_error {fd : UInt32} {io : Io} {ios : List Io} {f : Fault}
    (h : s.doIo fd io = .error f) :
    s.runIo fd (io :: ios) = .error f := by
  rw [runIo, h]
  rfl

theorem take_drop_append {content more : List UInt8} {n m : Nat} (h : r + n ≤ content.length) :
    (content.drop r).take n ++ ((content ++ more).drop (r + n)).take m = ((content ++ more).drop
    r).take (n + m) := by
  rw [List.take_add, List.drop_drop, List.drop_append_of_le_length (by omega : r ≤ content.length),
    List.take_append_of_le_length (by simp; omega)]

theorem FileSys.Opened.runIo {ios : List Io} (h : s.Opened free r content)
    (hlegal : Io.Legal content.length r ios) :
    (Io.FitBuffers content.length r ios ∧ free + Io.blocks content.length ios ≤ 262144 ∧
      ∃ t, s.runIo 0 ios = .ok (((content ++ Io.written ios).drop r).take (Io.asked ios), t)) ∨
    ¬ (Io.FitBuffers content.length r ios ∧ free + Io.blocks content.length ios ≤ 262144) ∧
      ∃ f, s.runIo 0 ios = .error f := by
  -- on the calls, with the state they start in; each continues what the others see
  induction ios generalizing s free r content with
  | nil =>
    obtain ⟨v, hshows, hv⟩ := h
    exact .inl ⟨trivial, hv.le, s, rfl⟩
  | cons io ios ih =>
    cases io with
    | write chunk =>
      obtain ⟨hshort, -, hlegal⟩ := hlegal
      obtain ⟨hroom, hfits, t, ht, hopened⟩ | ⟨hbad, f, hf⟩ := h.doFwrite hshort
      · rw [FileSys.runIo_cons (by rw [FileSys.doIo, ht]; rfl)]
        have hrest := ih hopened (by rwa [List.length_append])
        rw [List.length_append, List.append_assoc, Nat.add_assoc] at hrest
        obtain ⟨hbuffers, hblocks, u, hu⟩ | ⟨hbad, f, hf⟩ := hrest
        · exact .inl ⟨⟨hfits, hbuffers⟩, hblocks, u, by rw [hu]; rfl⟩
        · exact .inr ⟨fun hgood => hbad ⟨hgood.1.2, hgood.2⟩, f, by rw [hf]; rfl⟩
      · refine .inr ⟨fun hgood => hbad ⟨(Nat.add_le_add_left (Nat.le_add_right _ _) _).trans
          hgood.2, hgood.1.1⟩, f, ?_⟩
        exact FileSys.runIo_error (by rw [FileSys.doIo, hf]; rfl)
    | read length =>
      obtain ⟨hn, -, hlegal⟩ := hlegal
      obtain ⟨hfits, t, ht, hopened⟩ | ⟨hbad, f, hf⟩ := h.doFread hn
      · rw [FileSys.runIo_cons (show s.doIo 0 (.read length) = .ok (_, t) from ht)]
        obtain ⟨hbuffers, hblocks, u, hu⟩ | ⟨hbad, f, hf⟩ := ih hopened hlegal
        · refine .inl ⟨⟨hfits, hbuffers⟩, hblocks, u, ?_⟩
          rw [hu, Io.asked, ← take_drop_append hn]
          rfl
        · exact .inr ⟨fun hgood => hbad ⟨hgood.1.2, hgood.2⟩, f, by rw [hf]; rfl⟩
      · exact .inr ⟨fun hgood => hbad hgood.1.1, f, FileSys.runIo_error (show s.doIo 0
          (.read length) = .error f from hf)⟩

theorem Io.asked_le {ios : List Io} {w r : Nat} (h : Io.Legal w r ios) (hr : r ≤ w) :
    r + Io.asked ios ≤ w + (Io.written ios).length := by
  induction ios generalizing w r with
  | nil => simpa [Io.asked, Io.written] using hr
  | cons io ios ih =>
    cases io with
    | write chunk =>
      have hrest := ih h.2.2 (by omega)
      rw [Io.asked, Io.written, List.length_append]
      omega
    | read length =>
      have hrest := ih h.2.2 h.1
      rw [Io.asked, Io.written]
      omega

end Run

theorem FileSys.ReadsBack.fits {name : Text} (hname : name.IsFileName) {ios : List Io}
    (hlegal : Io.Legal 0 0 ios) {e e' : Env}
    {mode : UInt16} {access : UInt32} {s : FileSys} (h : s.ReadsBack e e' name mode access ios) :
    Io.FitBuffers 0 0 ios ∧ Io.blocks 0 ios ≤ 261877 := by
  obtain ⟨s₀, s₁, s₂, hs₀, hs₁, hs₂, hopened⟩ := exists_opened hname e e' mode access s
  obtain ⟨t₀, t₁, t₂, t, fd, data, ht₀, ht₁, ht₂, ht, -⟩ := h
  obtain rfl := Except.ok.inj (hs₀.symm.trans ht₀)
  obtain ⟨-, rfl⟩ := Prod.mk.inj (Except.ok.inj (hs₁.symm.trans ht₁))
  obtain ⟨rfl, rfl⟩ := Prod.mk.inj (Except.ok.inj (hs₂.symm.trans ht₂))
  obtain ⟨hbuffers, hblocks, -⟩ | ⟨-, f, hf⟩ := hopened.runIo hlegal
  · rw [List.length_nil] at hblocks
    exact ⟨hbuffers, by omega⟩
  · rw [hf] at ht
    cases ht

/-- What was written is read back exactly if each call fits its buffer, with the block behind a
boundary that it ends on, and the file system has the blocks that the calls take. -/
theorem reads_back_iff {name : Text} (hname : name.IsFileName) {ios : List Io}
    (hlegal : Io.Legal 0 0 ios) (e e' : Env)
    (mode : UInt16) (access : UInt32) (s : FileSys) :
    s.ReadsBack e e' name mode access ios ↔ Io.FitBuffers 0 0 ios ∧ Io.blocks 0 ios ≤ 261877 := by
  refine ⟨fun h => h.fits hname hlegal, ?_⟩
  rintro ⟨hbuffers, hblocks⟩
  obtain ⟨s₀, s₁, s₂, hs₀, hs₁, hs₂, hopened⟩ := exists_opened hname e e' mode access s
  obtain ⟨-, -, t, ht⟩ | ⟨hbad, -⟩ := hopened.runIo hlegal
  · have hasked := Io.asked_le hlegal le_rfl
    exact ⟨s₀, s₁, s₂, t, 0, _, hs₀, hs₁, hs₂, ht, List.take_prefix _ _, by simpa using hasked⟩
  · exact absurd ⟨hbuffers, by rw [List.length_nil]; omega⟩ hbad

theorem reads_back_two_bytes : Text.a.IsFileName ∧ Io.Legal 0 0 [.write [1, 2], .read 1] ∧
    FileSys.blank.ReadsBack .blank .blank .a 0 0 [.write [1, 2], .read 1] := by
  have hlegal : Io.Legal 0 0 [.write [1, 2], .read 1] := by simp [Io.Legal, Io.spanned]
  refine ⟨Text.isFileName_a, hlegal, (reads_back_iff Text.isFileName_a hlegal .blank .blank 0 0
    .blank).mpr ⟨?_, ?_⟩⟩
  · simp [Io.FitBuffers, FitsBuffer]
  · simp [Io.blocks, blocksFor]

theorem Io.legal_empty (n : Nat) : Io.Legal 0 0 (List.replicate n (.write [])) := by
  induction n with
  | zero => trivial
  | succ n ih => exact ⟨by simp, by simp [Io.spanned], ih⟩

theorem Io.blocks_empty (n : Nat) : Io.blocks 0 (List.replicate n (.write [])) = n := by
  induction n with
  | zero => rfl
  | succ n ih =>
    rw [List.replicate_succ, Io.blocks, List.length_nil, ih, blocksFor, if_pos rfl]
    omega

theorem Io.five_blocks {chunk : List UInt8} (h : chunk.length = 20480) :
    Io.Legal 0 0 [.write chunk] ∧ ¬ Io.FitBuffers 0 0 [.write chunk] := by
  simp [Io.Legal, Io.spanned, Io.FitBuffers, FitsBuffer, h]

theorem not_reads_back : ∃ five empty : List Io, five = [.write (List.replicate 20480 0)] ∧
    empty = List.replicate 261878 (.write []) ∧ Io.Legal 0 0 five ∧ Io.Legal 0 0 empty ∧
    ¬ FileSys.blank.ReadsBack .blank .blank .a 0 0 five ∧ ¬ FileSys.blank.ReadsBack .blank .blank .a
    0 0 empty := by
  obtain ⟨hlegal, hfive⟩ := Io.five_blocks (show (List.replicate 20480 (0 : UInt8)).length = 20480
    from List.length_replicate)
  refine ⟨_, _, rfl, rfl, hlegal, Io.legal_empty _, fun hreads =>
    hfive (hreads.fits Text.isFileName_a hlegal).1, fun hreads => ?_⟩
  have hblocks := (hreads.fits Text.isFileName_a (Io.legal_empty _)).2
  rw [Io.blocks_empty] at hblocks
  omega

end Ucas.Fs

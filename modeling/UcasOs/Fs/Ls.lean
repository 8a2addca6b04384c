import UcasOs.Fs.Entries
import Mathlib.Data.Nat.Find

/-! What `do_ls` lists. It goes through the slots of the first block and returns at the first empty
slot that two more follow, so that three removals in a row hide every entry behind them. -/

namespace Ucas.Fs
open Ucas.Lib

def live (b : Block) (j : Nat) : Bool := !(dentryAt b j).isEmpty

def liveFrom (b : Block) (j n : Nat) : List Dentry :=
  ((List.range' j n).filter (live b)).map (dentryAt b)

def liveEntries (b : Block) : List Dentry := liveFrom b 0 32

def Gap (b : Block) (t : Nat) : Prop :=
  t + 2 < 32 ∧ live b t = false ∧ live b (t + 1) = false ∧ live b (t + 2) = false

instance (b : Block) (t : Nat) : Decidable (Gap b t) := inferInstanceAs (Decidable (_ ∧ _))

section Scan
variable {b : Block}

theorem liveFrom_succ (b : Block) (j n : Nat) :
    liveFrom b j (n + 1) = (if live b j then [dentryAt b j] else []) ++ liveFrom b (j + 1) n := by
  rw [liveFrom, List.range'_succ, List.filter_cons]
  split_ifs <;> rfl

theorem liveFrom_add (b : Block) (j m n : Nat) :
    liveFrom b j (m + n) = liveFrom b j m ++ liveFrom b (j + m) n := by
  rw [liveFrom, ← List.range'_append_1, List.filter_append, List.map_append]
  rfl

theorem liveFrom_eq_nil {j n : Nat} :
    liveFrom b j n = [] ↔ ∀ k, j ≤ k → k < j + n → live b k = false := by
  rw [liveFrom, List.map_eq_nil_iff, List.filter_eq_nil_iff]
  refine ⟨fun h k hj hk => ?_, fun h k hk => ?_⟩
  · rw [← Bool.not_eq_true]
    exact h k (List.mem_range'_1.mpr ⟨hj, hk⟩)
  · obtain ⟨hj, hk⟩ := List.mem_range'_1.mp hk
    rw [h k hj hk]
    exact Bool.false_ne_true

theorem isEmpty_eq (b : Block) (j : Nat) : (dentryAt b j).isEmpty = !live b j :=
  (Bool.not_not _).symm

theorem lsBlock_eq (e : Env) {t : Nat} (hgap : Gap b t) (hfirst : ∀ m < t, ¬ Gap b m) {n j : Nat}
    (hj : j ≤ t) (ht : t < j + n)
    (acc : List Dentry) : FileSys.lsBlock e b n j acc = (true, acc ++ liveFrom b j (t - j)) := by
  induction n generalizing j acc with
  | zero => omega
  | succ n ih =>
    have hin := hgap.1
    simp only [FileSys.lsBlock, if_pos (show j < 32 by omega), if_pos (show j + 1 < 32 by omega),
      if_pos (show j + 2 < 32 by omega), isEmpty_eq, Bool.not_not]
    obtain rfl | hlt := Nat.eq_or_lt_of_le hj
    · simp [hgap.2.1, hgap.2.2.1, hgap.2.2.2, liveFrom]
    · rw [show t - j = t - (j + 1) + 1 by omega, liveFrom_succ]
      by_cases hlive : live b j = true
      · rw [if_pos hlive, if_pos hlive, ih (by omega) (by omega), List.append_assoc]
      · have hno : ¬ ((!live b (j + 1) && !live b (j + 2)) = true) := fun h => by
          rw [Bool.and_eq_true, Bool.not_eq_true', Bool.not_eq_true'] at h
          exact hfirst j hlt ⟨by omega, Bool.not_eq_true _ ▸ hlive, h⟩
        rw [if_neg hlive, if_neg hlive, if_neg hno, ih (by omega) (by omega), List.nil_append]

theorem lsBlock_full (e : Env) (hfull : ∀ j < 32, live b j = true) {n j : Nat} (hn : j + n ≤ 32)
    (acc : List Dentry) :
    FileSys.lsBlock e b n j acc = (false, acc ++ liveFrom b j n) := by
  induction n generalizing j acc with
  | zero => simp [FileSys.lsBlock, liveFrom]
  | succ n ih =>
    have hlive := hfull j (by omega)
    simp only [FileSys.lsBlock, if_pos (show j < 32 by omega), isEmpty_eq, Bool.not_not,
      if_pos hlive]
    rw [ih (by omega), liveFrom_succ, if_pos hlive, List.append_assoc]

theorem length_liveFrom_full (hfull : ∀ j < 32, live b j = true) :
    (liveFrom b 0 32).length = 32 := by
  rw [liveFrom, List.length_map, List.filter_eq_self.mpr fun j hj => hfull j
    (by simpa using (List.mem_range'_1.mp hj).2),
    List.length_range']

theorem countP_live_of_no_gap (hzero : live b 0 = true) (hno : ∀ t, ¬ Gap b t) {g : Nat}
    (hg : g ≤ 10) :
    g + 1 ≤ (List.range (3 * g + 1)).countP (live b) := by
  induction g with
  | zero => simp [hzero]
  | succ g ih =>
    have hthree := hno (3 * g + 1)
    rw [Gap] at hthree
    rw [show 3 * (g + 1) + 1 = 3 * g + 1 + 1 + 1 + 1 by omega, List.range_succ, List.range_succ,
      List.range_succ]
    simp only [List.countP_append, List.countP_singleton]
    have hprev := ih (by omega)
    cases h₁ : live b (3 * g + 1) <;> cases h₂ : live b (3 * g + 1 + 1) <;> cases h₃ : live b
      (3 * g + 1 + 1 + 1) <;>
      simp_all <;> omega

theorem length_liveEntries (b : Block) :
    (liveEntries b).length = (List.range 32).countP (live b) := by
  rw [liveEntries, liveFrom, List.length_map, List.countP_eq_length_filter, List.range_eq_range']

theorem gap_of_packed {k : Nat} (hk : k + 2 < 32) (h : ∀ j < 32, live b j = decide (j < k)) :
    Gap b k ∧ ∀ m < k, ¬ Gap b m := by
  refine ⟨⟨hk, ?_, ?_, ?_⟩, fun m hm hgap => ?_⟩
  · rw [h k (by omega), decide_eq_false (by omega)]
  · rw [h (k + 1) (by omega), decide_eq_false (by omega)]
  · rw [h (k + 2) (by omega), decide_eq_false (by omega)]
  · have hempty := hgap.2.1
    rw [h m (by omega), decide_eq_false_iff_not] at hempty
    exact hempty hm

theorem exists_gap (hzero : live b 0 = true) (hten : (liveEntries b).length ≤ 10) :
    ∃ t, Gap b t := by
  by_contra hno
  have hcount := countP_live_of_no_gap hzero (not_exists.mp hno) le_rfl
  rw [length_liveEntries, show 32 = 3 * 10 + 1 + 1 from rfl, List.range_succ,
    List.countP_append] at hten
  omega

end Scan

namespace FileSys
variable {s : FileSys}

theorem lsLoop_eq (e : Env) (i : Inode) {t : Nat} (hgap : Gap (s.readBlock (i.iDirectTable 0)) t)
    (hfirst : ∀ m < t, ¬ Gap (s.readBlock (i.iDirectTable 0)) m) :
    s.lsLoop e i maxBlockIndex 0 [] = .ok (liveFrom (s.readBlock (i.iDirectTable 0)) 0 t) := by
  have hin := hgap.1
  rw [show maxBlockIndex = 1074791435 + 1 from rfl, lsLoop, getBlockIndexInInode, dif_pos
    (by omega), ok_bind]
  dsimp only [Fin.zero_eta]
  rw [lsBlock_eq e hgap hfirst (Nat.zero_le t) (by omega)]
  rfl

theorem length_le_lsBlock (e : Env) (b : Block) (n j : Nat) (acc : List Dentry) :
    acc.length ≤ (lsBlock e b n j acc).2.length := by
  induction n generalizing j acc with
  | zero => exact le_rfl
  | succ n ih =>
    rw [lsBlock]
    generalize (fun j => if j < 32 then (dentryAt b j).isEmpty else e.behind (j - 32)) = empty
    split_ifs
    · exact le_trans (by simp) (ih ..)
    · exact le_rfl
    · exact ih ..

theorem length_le_of_lsLoop {e : Env} {i : Inode} {n k : Nat} {acc r : List Dentry}
    (h : s.lsLoop e i n k acc = .ok r) :
    acc.length ≤ r.length := by
  induction n generalizing k acc with
  | zero => exact (Except.ok.inj h) ▸ le_rfl
  | succ n ih =>
    rw [lsLoop] at h
    obtain ⟨p, -, h⟩ := exists_of_bind_ok h
    have hle := length_le_lsBlock e (s.readBlock p) 32 0 acc
    generalize lsBlock e (s.readBlock p) 32 0 acc = x at h hle
    obtain ⟨stop, acc'⟩ := x
    cases stop with
    | true => exact Except.ok.inj h ▸ hle
    | false => exact hle.trans (ih h)

theorem length_of_lsLoop_full {e : Env} {i : Inode}
    (hfull : ∀ j < 32, live (s.readBlock (i.iDirectTable 0)) j = true)
    {r : List Dentry} (h : s.lsLoop e i maxBlockIndex 0 [] = .ok r) : 32 ≤ r.length := by
  rw [show maxBlockIndex = 1074791435 + 1 from rfl, lsLoop, getBlockIndexInInode, dif_pos
    (by omega), ok_bind] at h
  dsimp only [Fin.zero_eta] at h
  rw [lsBlock_full e hfull le_rfl, List.nil_append] at h
  exact length_liveFrom_full hfull ▸ length_le_of_lsLoop h

/-- `do_ls` fills `ls_buffer` with the entries of the current directory's first block, all of them
and in their order. -/
def LsExact (e : Env) (s : FileSys) : Prop :=
  ∃ t, s.doLs e = .ok t ∧ t.lsBuffer = liveEntries (s.readBlock (s.currentDir.iDirectTable 0))

/-- No entry of the current directory's first block lies behind three empty slots. -/
def NoneBehindGap (s : FileSys) : Prop :=
  ∀ t, Gap (s.readBlock (s.currentDir.iDirectTable 0)) t → ∀ j < 32, t < j →
    live (s.readBlock (s.currentDir.iDirectTable 0)) j = false

theorem doLs_of_dir (e : Env) (hdir : sIslnk s.currentDir.iFmode = false) : s.doLs e =
    s.lsLoop e s.currentDir maxBlockIndex 0 [] >>= fun entries => .ok (s.inSession fun x =>
    { x with lsBuffer := entries }) := by
  rw [doLs, if_neg (by rw [hdir]; exact Bool.false_ne_true)]
  rfl

theorem lsExact_iff (e : Env) (hdir : sIslnk s.currentDir.iFmode = false) {t : Nat}
    (hgap : Gap (s.readBlock (s.currentDir.iDirectTable 0)) t)
    (hfirst : ∀ m < t, ¬ Gap (s.readBlock (s.currentDir.iDirectTable 0)) m) :
    s.LsExact e ↔ ∀ j, t ≤ j → j < 32 → live (s.readBlock (s.currentDir.iDirectTable 0))
    j = false := by
  have hin := hgap.1
  have hsplit : liveEntries (s.readBlock (s.currentDir.iDirectTable 0)) =
      liveFrom (s.readBlock (s.currentDir.iDirectTable 0)) 0 t ++
        liveFrom (s.readBlock (s.currentDir.iDirectTable 0)) t (32 - t) := by
    rw [liveEntries, show 32 = t + (32 - t) by omega, liveFrom_add, Nat.zero_add,
      show t + (32 - t) - t = 32 - t by omega]
  have hrest : liveFrom (s.readBlock (s.currentDir.iDirectTable 0)) t (32 - t) = [] ↔
      ∀ j, t ≤ j → j < 32 → live (s.readBlock (s.currentDir.iDirectTable 0)) j = false := by
    rw [liveFrom_eq_nil, show t + (32 - t) = 32 by omega]
  rw [LsExact, doLs_of_dir e hdir, lsLoop_eq e _ hgap hfirst, ok_bind, hsplit, ← hrest]
  refine ⟨?_, fun hnil => ⟨_, rfl, by rw [hnil, List.append_nil]; rfl⟩⟩
  rintro ⟨r, hr, hbuffer⟩
  cases hr
  exact List.self_eq_append_right.mp hbuffer

end FileSys

/-- In a directory with at most ten entries, `.` in slot 0 among them, `do_ls` lists all of them
exactly if none lies behind three empty slots. -/
theorem ls_exact_iff (e : Env) (s : FileSys) (hdir : sIslnk s.currentDir.iFmode = false)
    (hdot : live (s.readBlock (s.currentDir.iDirectTable 0)) 0 = true)
    (hten : (liveEntries (s.readBlock (s.currentDir.iDirectTable 0))).length ≤ 10) :
    s.LsExact e ↔ s.NoneBehindGap := by
  have hex := exists_gap hdot hten
  have hgap := Nat.find_spec hex
  have hfirst := fun m hm => Nat.find_min hex (m := m) hm
  rw [FileSys.lsExact_iff e hdir hgap hfirst]
  refine ⟨fun h m hm j hj hmj => ?_, fun h j htj hj => ?_⟩
  · -- the first gap is not behind this one
    have hle : Nat.find hex ≤ m := Nat.find_min' hex hm
    exact h j (by omega) hj
  · obtain heq | hlt := Nat.eq_or_lt_of_le htj
    · exact heq ▸ hgap.2.1
    · exact h _ hgap j hj hlt

section Live
variable {b : Block} {j : Nat}

theorem live_of_zero (h : dentryAt b j = .zero) : live b j = false := by
  rw [live, h]
  decide

theorem live_of_dName (h : (dentryAt b j).dName.bytes ≠ []) : live b j = true := by
  have hget : (dentryAt b j).get 4 ≠ 0 :=
    fun hzero => h ((textFrom_succ _ 123 4).trans (if_pos hzero))
  simp [live, Dentry.isEmpty, hget]

theorem live_directoryBlock (n p : UInt32) (hj : j < 32) :
    live (directoryBlock n p) j = decide (j < 2) := by
  have hentry := dentryAt_directoryBlock n p hj
  by_cases h₁ : j = 1
  · rw [if_pos h₁] at hentry
    rw [live_of_dName (by rw [hentry, dName_fill (by decide)]; decide)]
    simp [h₁]
  · by_cases h₀ : j = 0
    · rw [if_neg h₁, if_pos h₀] at hentry
      rw [live_of_dName (by rw [hentry, dName_fill (by decide)]; decide)]
      simp [h₀]
    · rw [if_neg h₁, if_neg h₀] at hentry
      rw [live_of_zero hentry]
      simp
      omega

end Live

def Volume.here (v : Volume) (p : Block → Bool) : Bool :=
  (v.read (v.currentDir.iDirectTable 0)).sure p

theorem Shows.of_here {s : FileSys} {v : Volume} (h : Shows s v) {p : Block → Bool}
    (hp : v.here p = true) : p (s.readBlock (s.currentDir.iDirectTable 0)) = true := by
  rw [h.currentDir_eq]
  exact h.of_sure_read hp

def noneBehindGap (b : Block) : Bool :=
  (List.range 30).all fun t =>
    !decide (Gap b t) || (List.range 32).all fun j => decide (j ≤ t) || !live b j

theorem of_noneBehindGap {b : Block} (h : noneBehindGap b = true) {t : Nat} (hgap : Gap b t)
    {j : Nat} (hj : j < 32) (htj : t < j) : live b j = false := by
  have ht := List.all_eq_true.mp h t (List.mem_range.mpr (by have := hgap.1; omega))
  rw [decide_eq_true hgap] at ht
  have hslot := List.all_eq_true.mp ht j (List.mem_range.mpr hj)
  rwa [decide_eq_false (by omega), Bool.false_or, Bool.not_eq_true'] at hslot

/-- One empty slot hides nothing. -/
theorem ls_exact_behind_hole : ∃ s₀ s, FileSys.blank.doMkfs .blank = .ok s₀ ∧
    runOps [.mkdir (Text.dot.child .a) 0, .touch .b 0, .rmdir (Text.dot.child .a), .cd .dot] s₀ =
      .ok s ∧ live (s.readBlock (s.currentDir.iDirectTable 0)) 2 = false ∧
    live (s.readBlock (s.currentDir.iDirectTable 0)) 3 = true ∧ s.LsExact .blank := by
  obtain ⟨s₀, s, v, hs₀, hs, -, hv, hp⟩ := exists_run_writesThrough
    [.mkdir (Text.dot.child .a) 0, .touch .b 0, .rmdir (Text.dot.child .a), .cd .dot]
    (p := fun v => !sIslnk v.currentDir.iFmode && v.here fun b => live b 0 && !live b 2 &&
      live b 3 && decide ((liveEntries b).length ≤ 10) && noneBehindGap b) (by decide +kernel)
  obtain ⟨hmode, hhere⟩ := Bool.and_eq_true_iff.mp hp
  rw [← hv.currentDir_eq, Bool.not_eq_true'] at hmode
  have hblock := hv.of_here hhere
  simp only [Bool.and_eq_true, Bool.not_eq_true', decide_eq_true_eq] at hblock
  obtain ⟨⟨⟨⟨hdot, htwo⟩, hthree⟩, hten⟩, hgap⟩ := hblock
  exact ⟨s₀, s, hs₀, hs, htwo, hthree, (ls_exact_iff .blank s hmode hdot hten).mpr
    fun t ht j hj htj => of_noneBehindGap hgap ht hj htj⟩

/-- Three times `mkdir ./a` and `rmdir ./a`, then `touch a` and `cd .`. -/
def makeBehindGap : List Op :=
  [.mkdir (Text.dot.child .a) 0, .rmdir (Text.dot.child .a), .mkdir (Text.dot.child .a) 0,
    .rmdir (Text.dot.child .a), .mkdir (Text.dot.child .a) 0, .rmdir (Text.dot.child .a),
    .touch .a 0, .cd .dot]

theorem ls_omits_a : ∃ s₀ s, FileSys.blank.doMkfs .blank = .ok s₀ ∧
    runOps makeBehindGap s₀ = .ok s ∧
    sIslnk s.currentDir.iFmode = false ∧ live (s.readBlock (s.currentDir.iDirectTable 0)) 0 = true ∧
    (liveEntries (s.readBlock (s.currentDir.iDirectTable 0))).length = 3 ∧ ¬ s.LsExact .blank := by
  obtain ⟨s₀, s, v, hs₀, hs, -, hv, hp⟩ := exists_run_writesThrough makeBehindGap
    (p := fun v => !sIslnk v.currentDir.iFmode && v.here fun b => live b 0 && live b 1 &&
      live b 5 && (liveEntries b).length == 3 && decide (Gap b 2)) (by decide +kernel)
  obtain ⟨hmode, hhere⟩ := Bool.and_eq_true_iff.mp hp
  rw [← hv.currentDir_eq, Bool.not_eq_true'] at hmode
  have hblock := hv.of_here hhere
  simp only [Bool.and_eq_true, beq_iff_eq, decide_eq_true_eq] at hblock
  obtain ⟨⟨⟨⟨hdot, hdotdot⟩, hfive⟩, hthree⟩, hgap⟩ := hblock
  have hfirst : ∀ m < 2, ¬ Gap (s.readBlock (s.currentDir.iDirectTable 0)) m := by
    rintro m hm ⟨-, hempty, -⟩
    obtain rfl | rfl : m = 0 ∨ m = 1 := by omega
    · exact absurd (hdot.symm.trans hempty) (by decide)
    · exact absurd (hdotdot.symm.trans hempty) (by decide)
  refine ⟨s₀, s, hs₀, hs, hmode, hdot, hthree, fun hexact => ?_⟩
  have hempty := (FileSys.lsExact_iff .blank hmode hgap hfirst).mp hexact 5 (by omega) (by omega)
  exact absurd (hfive.symm.trans hempty) (by decide)

end Ucas.Fs

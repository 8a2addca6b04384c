import UcasOs.Screen.Redraw

/-! Where the driver stores characters. The cursor is put back on the screen after every character,
so only the first character of a text can be stored at a position that was asked for with
`screen_move_cursor`. -/

namespace Ucas.Screen
open Ucas.Lib

variable {s s' : Console} {ch : UInt8} {l : Text}

def storesAt (s : Console) (ch : UInt8) : Option Int :=
  if ch = 10 ∨ ch = 13 then none
  else if ch = 8 then if s.cursorX > 0 then
    some (cursorIndex { s with cursorX := s.cursorX - 1 }) else none
  else some (cursorIndex s)

def InBounds (i : Int) : Prop := 0 ≤ i ∧ i < screenHeight * screenWidth

instance (i : Int) : Decidable (InBounds i) :=
  inferInstanceAs (Decidable (0 ≤ i ∧ i < screenHeight * screenWidth))

theorem putNew_of_inBounds {i : Int} (h : InBounds i) (ch : UInt8) (s : Console) :
    putNew i ch s = .ok { s with newScreen := Function.update s.newScreen i.toNat ch } := by
  rw [putNew, index, if_pos (show 0 ≤ i ∧ i < screenHeight * screenWidth from h)]
  rfl

theorem putNew_of_not_inBounds {i : Int} (h : ¬ InBounds i) (ch : UInt8) (s : Console) :
    putNew i ch s = .error .bounds := by
  rw [putNew, index, if_neg (show ¬ (0 ≤ i ∧ i < screenHeight * screenWidth) from h)]
  rfl

theorem width_pos : (0 : Int) < screenWidth := by decide

theorem height_pos : (0 : Int) < screenHeight := by decide

theorem exists_keepInside_of_column (hx0 : 0 ≤ s.cursorX) (hx : s.cursorX < screenWidth) :
    ∃ s', keepInside s = .ok s' ∧ Inside s' := by
  have hcol : keepInside s =
      let s : Console := if s.cursorY < 0 then { s with cursorY := 0 } else s
      if s.cursorY ≥ screenHeight then do
        let s ← screenScroll (screenHeight / 2 + 1) (screenHeight - 1) s
        return { s with cursorX := 0, cursorY := screenHeight - 1 }
      else .ok s := by
    simp only [keepInside, Int.not_lt.mpr hx0, Int.not_le.mpr hx, if_false, ge_iff_le]
  rw [hcol]
  by_cases htop : s.cursorY < 0
  · simp only [if_pos htop]
    exact ⟨_, if_neg (Int.not_le.mpr height_pos), hx0, hx, Int.le_refl 0, height_pos⟩
  · simp only [if_neg htop]
    by_cases hlast : s.cursorY ≥ screenHeight
    · rw [if_pos hlast, screenScroll_eq (by decide) (by decide), ok_bind]
      exact ⟨_, rfl, Int.le_refl 0, width_pos, Int.le_sub_one_of_lt height_pos, Int.sub_one_lt_of_le
        (Int.le_refl _)⟩
    · exact ⟨s, if_neg hlast, hx0, hx, by omega, by omega⟩

theorem exists_keepInside (s : Console) : ∃ s', keepInside s = .ok s' ∧ Inside s' := by
  have hpos : ¬ (screenWidth : Int) ≤ 0 := Int.not_le.mpr width_pos
  by_cases hneg : s.cursorX < 0
  · have hzero : keepInside s = keepInside { s with cursorX := 0 } := by
      simp only [keepInside, if_pos hneg, Int.lt_irrefl, if_false]
    rw [hzero]
    exact exists_keepInside_of_column (Int.le_refl 0) width_pos
  · by_cases hwrap : (screenWidth : Int) ≤ s.cursorX
    · have hnext : keepInside s = keepInside
          { s with cursorX := 0, cursorY := int (s.cursorY + 1) } := by
        simp only [keepInside, hneg, hwrap, hpos, if_false, if_true, ge_iff_le, Int.lt_irrefl]
      rw [hnext]
      exact exists_keepInside_of_column (Int.le_refl 0) width_pos
    · exact exists_keepInside_of_column (by omega) (by omega)

theorem exists_screenWriteCh (h : ∀ i ∈ storesAt s ch, InBounds i) :
    ∃ s', screenWriteCh ch s = .ok s' ∧ Inside s' := by
  rw [screenWriteCh]
  rw [storesAt] at h
  by_cases hnl : ch = 10
  · rw [if_pos hnl]
    exact exists_keepInside _
  rw [if_neg hnl]
  by_cases hbs : ch = 8
  · rw [if_pos hbs]
    by_cases hpos : s.cursorX > 0
    · have hin : InBounds (cursorIndex { s with cursorX := s.cursorX - 1 }) := by
        refine h _ ?_
        rw [if_neg (by rw [hbs]; decide), if_pos hbs, if_pos hpos]
        rfl
      rw [if_pos hpos]
      dsimp only
      rw [putNew_of_inBounds hin, ok_bind]
      exact exists_keepInside _
    · rw [if_neg hpos]
      exact exists_keepInside _
  rw [if_neg hbs]
  by_cases hcr : ch = 13
  · rw [if_pos hcr]
    exact exists_keepInside _
  rw [if_neg hcr]
  have hin : InBounds (cursorIndex s) := by
    refine h _ ?_
    rw [if_neg (not_or.mpr ⟨hnl, hcr⟩), if_neg hbs]
    rfl
  rw [putNew_of_inBounds hin, ok_bind]
  exact exists_keepInside _

theorem screenWriteCh_eq_error {i : Int} (hi : storesAt s ch = some i) (hout : ¬ InBounds i) :
    screenWriteCh ch s = .error .bounds := by
  rw [storesAt] at hi
  split_ifs at hi with hplain hbs hpos
  · obtain rfl := Option.some.inj hi
    rw [screenWriteCh, if_neg (fun h => hplain (.inl h)), if_pos hbs, if_pos hpos]
    dsimp only
    rw [putNew_of_not_inBounds hout]
    rfl
  · obtain rfl := Option.some.inj hi
    rw [screenWriteCh, if_neg (fun h => hplain (.inl h)), if_neg hbs, if_neg (fun h => hplain
      (.inr h)),
      putNew_of_not_inBounds hout]
    rfl

theorem Inside.inBounds (h : Inside s) : InBounds (cursorIndex s) := by
  obtain ⟨k, -, hk⟩ := h.index_cursor
  rw [index] at hk
  split_ifs at hk with hin
  exact hin

theorem Inside.storesAt (h : Inside s) (ch : UInt8) : ∀ i ∈ storesAt s ch, InBounds i := by
  intro i hi
  rw [Screen.storesAt] at hi
  rw [Option.mem_def] at hi
  split_ifs at hi with hplain hbs hpos
  · obtain rfl := Option.some.inj hi
    have hr := h.right
    exact Inside.inBounds ⟨by dsimp only; omega, by dsimp only; omega, h.top, h.bottom⟩
  · obtain rfl := Option.some.inj hi
    exact h.inBounds

def StartsInBounds (s : Console) (buff : Text) : Prop :=
  ∀ ch ∈ (buff.takeWhile (· ≠ 0)).head?, ∀ i ∈ storesAt s ch, InBounds i

theorem exists_foldlM_screenWriteCh (h : Inside s) (l : Text) :
    ∃ s', l.foldlM (fun s ch => screenWriteCh ch s) s = .ok s' ∧ Inside s' := by
  induction l generalizing s with
  | nil => exact ⟨s, rfl, h⟩
  | cons ch l ih =>
    obtain ⟨s₁, hs₁, h₁⟩ := exists_screenWriteCh (h.storesAt ch)
    rw [List.foldlM_cons, hs₁, ok_bind]
    exact ih h₁

theorem screenWrite_iff (s : Console) (buff : Text) :
    (∃ s', screenWrite buff s = .ok s') ↔ StartsInBounds s buff := by
  rw [screenWrite, StartsInBounds]
  cases buff.takeWhile (· ≠ 0) with
  | nil => exact iff_of_true ⟨s, rfl⟩ fun ch hch => by cases hch
  | cons ch l =>
    rw [List.head?_cons, List.foldlM_cons]
    constructor
    · rintro ⟨s', hs'⟩ c hc i hi
      obtain rfl := Option.some.inj hc
      by_contra hout
      rw [screenWriteCh_eq_error hi hout] at hs'
      cases hs'
    · intro h
      obtain ⟨s₁, hs₁, h₁⟩ := exists_screenWriteCh (h ch rfl)
      obtain ⟨s', hs', -⟩ := exists_foldlM_screenWriteCh h₁ l
      exact ⟨s', by rw [hs₁, ok_bind, hs']⟩

theorem exists_reflushCell {i j : Nat} (hi : i < screenHeight) (hj : j < screenWidth)
    (s : Console) :
    ∃ s', reflushCell i j s = .ok s' ∧ s'.cursorX = s.cursorX ∧ s'.cursorY = s.cursorY := by
  rw [reflushCell_eq hi hj]
  refine ⟨_, rfl, ?_⟩
  split_ifs <;> exact ⟨rfl, rfl⟩

theorem exists_screenClear (line1 line2 : Int) (s : Console) :
    ∃ s', screenClear line1 line2 s = .ok s' := by
  obtain ⟨s₁, hs₁, hx, hy⟩ := forCells_ok (I := fun _ s' => s'.cursorX = 0 ∧ s'.cursorY = 0)
    (a := 0)
    (n := screenHeight) (f := reflushCell) (s := blanked s) ⟨rfl, rfl⟩ (by
      rintro i j s₁ - hi hj ⟨hx, hy⟩
      rw [Nat.zero_add] at hi
      obtain ⟨s₂, hs₂, hx₂, hy₂⟩ := exists_reflushCell hi hj s₁
      exact ⟨s₂, hs₂, hx₂.trans hx, hy₂.trans hy⟩)
  have hmove := vt100MoveCursor_eq (x := 0) (y := 0) (by decide) (by decide) s₁
  rw [screenClear_eq, screenReflush, List.range_eq_range', hs₁, ok_bind, hx, hy]
  exact ⟨_, hmove⟩

/-! ### Runs -/

def Op.Moves : Op → Prop
  | .write _ | .moveCursor _ _ | .clear _ _ => True
  | .reflush | .doWrite _ => False

def Op.Safe (s : Console) : Op → Prop
  | .write buff => StartsInBounds s buff
  | _ => True

theorem exec_iff {op : Op} (hop : op.Moves) (s : Console) :
    (∃ s', exec op s = .ok s') ↔ op.Safe s := by
  cases op with
  | write buff => exact screenWrite_iff s buff
  | moveCursor x y => exact iff_of_true ⟨_, rfl⟩ trivial
  | clear line1 line2 => exact iff_of_true (exists_screenClear line1 line2 s) trivial
  | reflush => exact hop.elim
  | doWrite buff => exact hop.elim

def AllSafe : Console → List Op → Prop
  | _, [] => True
  | s, op :: ops => op.Safe s ∧ ∀ s', exec op s = .ok s' → AllSafe s' ops

theorem foldlM_exec_iff {ops : List Op} (hops : ∀ op ∈ ops, op.Moves) (s : Console) :
    (∃ s', ops.foldlM (fun s op => exec op s) s = .ok s') ↔ AllSafe s ops := by
  induction ops generalizing s with
  | nil => exact iff_of_true ⟨s, rfl⟩ trivial
  | cons op ops ih =>
    have hrest : ∀ op' ∈ ops, op'.Moves := fun op' hop' => hops op' (List.mem_cons_of_mem _ hop')
    rw [AllSafe, ← exec_iff (hops op List.mem_cons_self) s, List.foldlM_cons]
    constructor
    · rintro ⟨s', hs'⟩
      obtain ⟨s₁, hs₁, hs'⟩ := exists_of_bind_ok hs'
      refine ⟨⟨s₁, hs₁⟩, fun s₂ hs₂ => (ih hrest s₂).mp ⟨s', ?_⟩⟩
      rwa [← Except.ok.inj (hs₁.symm.trans hs₂)]
    · rintro ⟨⟨s₁, hs₁⟩, hall⟩
      obtain ⟨s', hs'⟩ := (ih hrest s₁).mpr (hall s₁ hs₁)
      exact ⟨s', by rw [hs₁, ok_bind, hs']⟩

theorem exists_initScreen (s : Console) : ∃ s', initScreen s = .ok s' := by
  rw [initScreen, vt100HiddenCursor_eq, ok_bind, vt100Clear_eq, ok_bind]
  exact exists_screenClear 0 (screenHeight - 1) _

theorem screen_bounds_iff (s : Console) (ops : List Op) (hops : ∀ op ∈ ops, op.Moves) :
    (∃ s', run ops s = .ok s') ↔ ∀ s₀, initScreen s = .ok s₀ → AllSafe s₀ ops := by
  obtain ⟨s₀, hs₀⟩ := exists_initScreen s
  rw [run, hs₀, ok_bind, foldlM_exec_iff hops]
  constructor
  · intro h s₁ hs₁
    rwa [← Except.ok.inj hs₁]
  · intro h
    exact h s₀ rfl

theorem screen_bounds_last_cell :
    ∃ s', run [.moveCursor 79 59, .write [65, 66]] ⟨0, 0, fun _ => 0, fun _ => 0, []⟩ = .ok s' := by
  refine (screen_bounds_iff _ _ ?_).mpr fun s₀ _ => ⟨trivial, fun s₁ hs₁ =>
    ⟨?_, fun _ _ => trivial⟩⟩
  · simp [Op.Moves]
  · obtain rfl := Except.ok.inj hs₁
    rintro ch hch i hi
    obtain rfl : 65 = ch := Option.some.inj hch
    obtain rfl := Option.some.inj hi
    exact (by decide : InBounds (int (int (59 * screenWidth) + 79)))

theorem screen_bounds_below :
    run [.moveCursor 0 60, .write [65]] ⟨0, 0, fun _ => 0, fun _ => 0, []⟩ = .error .bounds := by
  obtain ⟨s₀, hs₀⟩ := exists_initScreen ⟨0, 0, fun _ => 0, fun _ => 0, []⟩
  have hout : ¬ InBounds (int (int (60 * screenWidth) + 0)) := by decide
  have hch : screenWriteCh 65 (screenMoveCursor 0 60 s₀) = .error .bounds :=
    screenWriteCh_eq_error rfl hout
  rw [run, hs₀, ok_bind, List.foldlM_cons, exec, ok_bind, List.foldlM_cons, exec, screenWrite,
    show ([65] : Text).takeWhile (· ≠ 0) = [65] from rfl, List.foldlM_cons, hch]
  rfl

end Ucas.Screen

import UcasOs.Screen.Model
import Mathlib.Data.List.TakeWhile

/-! Redrawing the changed cells is as good as redrawing all of them. A cell of `old_screen` that is
not 0 is what the terminal shows there, and `new_screen` never holds a 0, so that `screen_reflush`
sends every cell about which the driver is not sure. -/

namespace Ucas.Screen
open Ucas.Lib

variable {s s' : Console} {t : Vt100.Terminal}

theorem index_subscript {i j : Nat} (hi : i < screenHeight) (hj : j < screenWidth) :
    index (subscript i j) = .ok (i * screenWidth + j) := by
  have hlt : i * screenWidth + j < screenHeight * screenWidth := by
    simp only [screenHeight, screenWidth] at *
    omega
  rw [index, subscript, if_pos (by omega), Int.toNat_natCast]

section Loop

theorem forCells_ok {σ : Type} {f : Nat → Nat → σ → Except Fault σ} {I : Nat → σ → Prop} {a n : Nat}
    {s : σ}
    (hs : I (a * screenWidth) s)
    (hf : ∀ i j s, a ≤ i → i < a + n → j < screenWidth → I (i * screenWidth + j) s →
      ∃ s', f i j s = .ok s' ∧ I (i * screenWidth + j + 1) s') :
    ∃ s', forCells (List.range' a n) f s = .ok s' ∧ I ((a + n) * screenWidth) s' := by
  refine foldlM_range'_ok (I := fun i => I (i * screenWidth)) hs fun i s hai hi hI => ?_
  rw [List.range_eq_range']
  obtain ⟨s', hs', hI'⟩ := foldlM_range'_ok (f := fun s j => f i j s) (I := fun j =>
    I (i * screenWidth + j))
    (a := 0) (n := screenWidth) hI fun j s _ hj => hf i j s hai hi (by omega)
  refine ⟨s', hs', ?_⟩
  rwa [Nat.succ_mul, ← Nat.zero_add screenWidth, Nat.zero_add screenWidth]

end Loop

section Cursor

theorem ne_zero_of_mem_moveBytes {r c : Text} (hr : Vt100.Digits r) (hc : Vt100.Digits c) :
    ∀ b ∈ Vt100.moveBytes r c, b ≠ 0 := by
  have hdigits : ∀ l, Vt100.Digits l → ∀ b ∈ l, b ≠ 0 := by
    rintro l hl b hb rfl
    exact absurd (hl 0 hb) (by decide)
  intro b hb
  simp only [Vt100.moveBytes, List.mem_append, List.mem_cons, List.not_mem_nil, or_false] at hb
  rcases hb with ((((rfl | rfl) | hb) | rfl) | hb) | rfl
  all_goals first | decide | exact hdigits _ ‹_› b hb

theorem vt100MoveCursor_eq {x y : Nat} (hx : x < 2 ^ 31) (hy : y < 2 ^ 31) (s : Console) :
    vt100MoveCursor x y s = .ok
    { s with sent := s.sent ++ Vt100.moveBytes (decimal y) (decimal x) } := by
  have hlx := decimal_length x
  have hly := decimal_length y
  have hprintk : printk [37, 99, 91, 37, 100, 59, 37, 100, 72]
      [.word 27, .word (BitVec.ofInt 32 y), .word (BitVec.ofInt 32 x)] =
      some (Vt100.moveBytes (decimal y) (decimal x)) := by
    rw [printk, BitVec.ofInt_natCast, BitVec.ofInt_natCast, vsnprintf_c (by simp),
      vsnprintf_copy (by decide) (by simp), vsnprintf_d hy (by simp),
      vsnprintf_copy (by decide) (by simp; omega), vsnprintf_d hx (by simp; omega),
      vsnprintf_copy (by decide) (by simp; omega), miniVsnprintf]
    have hout : ([] ++ [UInt8.ofNat (27 : BitVec 32).toNat] ++ [91] ++ decimal y ++ [59] ++
      decimal x ++ [72] : Text) =
        Vt100.moveBytes (decimal y) (decimal x) := rfl
    rw [hout]
    refine congrArg some (List.takeWhile_eq_self_iff.mpr fun b hb => ?_)
    exact decide_eq_true (ne_zero_of_mem_moveBytes (decimal_digits y) (decimal_digits x) b hb)
  rw [vt100MoveCursor, portWrite, hprintk]

theorem feed_vt100MoveCursor {x y : Nat} (hx : x < 2 ^ 31) (hy : y < 2 ^ 31)
    (ht : t.mode = .ground) :
    t.feed (Vt100.moveBytes (decimal y) (decimal x)) = t.move y x := by
  rw [Vt100.feed_moveBytes ht (decimal_digits y) (decimal_digits x), value_decimal (by omega),
    value_decimal (by omega)]

end Cursor

/-- `screen_cursor_x` and `screen_cursor_y` are on the screen. -/
structure Inside (s : Console) : Prop where
  left : 0 ≤ s.cursorX
  right : s.cursorX < screenWidth
  top : 0 ≤ s.cursorY
  bottom : s.cursorY < screenHeight

def shownAt (t : Vt100.Terminal) (s : Console) (k : Nat) : UInt8 :=
  (t.feed s.sent).cell (k / screenWidth + 1) (k % screenWidth + 1)

structure Synced (t : Vt100.Terminal) (s : Console) : Prop where
  ground : (t.feed s.sent).mode = .ground
  printable : ∀ k < screenHeight * screenWidth, Vt100.Printable (s.newScreen k)
  shown : ∀ k < screenHeight * screenWidth, s.oldScreen k ≠ 0 → shownAt t s k = s.oldScreen k

/-- The terminal shows exactly `new_screen`, and `old_screen` is equal to it. -/
def ShowsAll (t : Vt100.Terminal) (s : Console) : Prop :=
  ∀ k < screenHeight * screenWidth, shownAt t s k = s.newScreen k ∧ s.oldScreen k = s.newScreen k

structure SameText (s s' : Console) : Prop where
  cursorX : s'.cursorX = s.cursorX
  cursorY : s'.cursorY = s.cursorY
  newScreen : s'.newScreen = s.newScreen

section Reflush

theorem subscript_div {i j : Nat} (hj : j < screenWidth) :
    (i * screenWidth + j) / screenWidth = i := by
  rw [screenWidth] at *
  omega

theorem subscript_mod {i j : Nat} (hj : j < screenWidth) :
    (i * screenWidth + j) % screenWidth = j := by
  rw [screenWidth] at *
  omega

theorem subscript_div_mod (k : Nat) : k / screenWidth * screenWidth + k % screenWidth = k :=
  Nat.div_add_mod' k _

def Console.drawCell (s : Console) (i j : Nat) : Console :=
  { s with
    sent := s.sent ++ Vt100.moveBytes (decimal (i + 1)) (decimal (j + 1)) ++
      [s.newScreen (i * screenWidth + j)]
    oldScreen := Function.update s.oldScreen (i * screenWidth + j)
      (s.newScreen (i * screenWidth + j)) }

theorem reflushCell_eq {i j : Nat} (hi : i < screenHeight) (hj : j < screenWidth) (s : Console) :
    reflushCell i j s = .ok (if s.newScreen (i * screenWidth + j) ≠ s.oldScreen
      (i * screenWidth + j) then s.drawCell i j else s) := by
  have hmove := vt100MoveCursor_eq (x := j + 1) (y := i + 1)
    (by simp only [screenWidth] at hj; omega) (by simp only [screenHeight] at hi; omega) s
  push_cast at hmove
  rw [reflushCell, index_subscript hi hj, ok_bind]
  split_ifs
  · rw [hmove, ok_bind, putOld, index_subscript hi hj, ok_bind]
    rfl
  · rfl

theorem Synced.draw {i j : Nat} (h : Synced t s) (hi : i < screenHeight) (hj : j < screenWidth) :
    Synced t (s.drawCell i j) := by
  have hlt : i * screenWidth + j < screenHeight * screenWidth := by
    simp only [screenHeight, screenWidth] at *
    omega
  have hfeed : t.feed (s.sent ++ Vt100.moveBytes (decimal (i + 1)) (decimal (j + 1)) ++
      [s.newScreen (i * screenWidth + j)]) =
      ((t.feed s.sent).move (i + 1) (j + 1)).draw (s.newScreen (i * screenWidth + j)) := by
    rw [Vt100.Terminal.feed_append, Vt100.Terminal.feed_append, feed_vt100MoveCursor _ _ h.ground,
      Vt100.Terminal.feed_cons, Vt100.Terminal.feed_nil]
    · exact Vt100.Terminal.receive_printable h.ground (h.printable _ hlt)
    · simp only [screenWidth] at hj
      omega
    · simp only [screenHeight] at hi
      omega
  refine ⟨by rw [Console.drawCell, hfeed]; exact h.ground, h.printable, fun k hk hold => ?_⟩
  rw [shownAt, Console.drawCell, hfeed, Vt100.Terminal.cell_move_draw]
  by_cases hkk : k = i * screenWidth + j
  · rw [hkk, subscript_div hj, subscript_mod hj, if_pos ⟨rfl, rfl⟩]
    exact (Function.update_self (f := s.oldScreen) _ _).symm
  · have hkeep : Function.update s.oldScreen (i * screenWidth + j)
      (s.newScreen (i * screenWidth + j)) k =
        s.oldScreen k := Function.update_of_ne hkk _ _
    rw [if_neg]
    · exact (h.shown k hk (hkeep ▸ hold)).trans hkeep.symm
    · rintro ⟨hrow, hcol⟩
      apply hkk
      rw [← subscript_div_mod k, show k / screenWidth = i by omega, show k % screenWidth =
        j by omega]

theorem Synced.moveCursor {x y : Nat} (h : Synced t s) (hx : x < 2 ^ 31) (hy : y < 2 ^ 31) :
    Synced t { s with sent := s.sent ++ Vt100.moveBytes (decimal y) (decimal x) } := by
  have hfeed : t.feed (s.sent ++ Vt100.moveBytes (decimal y) (decimal x)) = (t.feed s.sent).move y
      x := by
    rw [Vt100.Terminal.feed_append, feed_vt100MoveCursor hx hy h.ground]
  refine ⟨by rw [hfeed]; exact h.ground, h.printable, fun k hk hold => ?_⟩
  rw [shownAt, hfeed]
  exact h.shown k hk hold

theorem reflushCell_ok {i j : Nat} (h : Synced t s) (hi : i < screenHeight) (hj : j < screenWidth) :
    ∃ s', reflushCell i j s = .ok s' ∧ Synced t s' ∧ SameText s s' ∧
      s'.oldScreen = Function.update s.oldScreen (i * screenWidth + j)
      (s.newScreen (i * screenWidth + j)) := by
  rw [reflushCell_eq hi hj]
  refine ⟨_, rfl, ?_⟩
  split_ifs with hne
  · exact ⟨h.draw hi hj, ⟨rfl, rfl, rfl⟩, rfl⟩
  · refine ⟨h, ⟨rfl, rfl, rfl⟩, ?_⟩
    rw [not_not.mp hne, Function.update_eq_self]

theorem SameText.inside (h : SameText s s') (hin : Inside s) : Inside s' :=
  ⟨h.cursorX ▸ hin.left, h.cursorX ▸ hin.right, h.cursorY ▸ hin.top, h.cursorY ▸ hin.bottom⟩

theorem SameText.trans {s'' : Console} (h : SameText s s') (h' : SameText s' s'') :
    SameText s s'' :=
  ⟨h'.cursorX.trans h.cursorX, h'.cursorY.trans h.cursorY, h'.newScreen.trans h.newScreen⟩

structure Reflushing (t : Vt100.Terminal) (s : Console) (k : Nat) (s' : Console) : Prop where
  synced : Synced t s'
  same : SameText s s'
  done : ∀ c < k, s'.oldScreen c = s'.newScreen c

theorem Reflushing.cell {i j : Nat} {s₁ : Console} (h : Reflushing t s (i * screenWidth + j) s₁)
    (hi : i < screenHeight) (hj : j < screenWidth) :
    ∃ s₂, reflushCell i j s₁ = .ok s₂ ∧ Reflushing t s (i * screenWidth + j + 1) s₂ := by
  obtain ⟨s₂, hs₂, hsync, hsame, hold⟩ := reflushCell_ok h.synced hi hj
  refine ⟨s₂, hs₂, hsync, h.same.trans hsame, fun c hc => ?_⟩
  rw [hold, hsame.newScreen]
  by_cases hck : c = i * screenWidth + j
  · rw [hck, Function.update_self]
  · rw [Function.update_of_ne hck]
    exact h.done c (by omega)

theorem screenReflush_ok (h : Synced t s) (hin : Inside s) :
    ∃ s', screenReflush s = .ok s' ∧ Synced t s' ∧ SameText s s' ∧ ShowsAll t s' := by
  obtain ⟨s₁, hs₁, hloop⟩ := forCells_ok (I := Reflushing t s) (a := 0) (n := screenHeight)
    ⟨h, ⟨rfl, rfl, rfl⟩, fun c hc => absurd hc (by simp)⟩
    fun i j s₁ _ hi hj hI => hI.cell (Nat.zero_add screenHeight ▸ hi) hj
  rw [Nat.zero_add] at hloop
  obtain ⟨hsync, hsame, hdone⟩ := hloop
  obtain ⟨hl, hr, htop, hb⟩ := hsame.inside hin
  have hx : s₁.cursorX.toNat < 2 ^ 31 := by
    simp only [screenWidth] at hr
    omega
  have hy : s₁.cursorY.toNat < 2 ^ 31 := by
    simp only [screenHeight] at hb
    omega
  have hmove := vt100MoveCursor_eq hx hy s₁
  rw [Int.toNat_of_nonneg hl, Int.toNat_of_nonneg htop] at hmove
  have hfinal := hsync.moveCursor hx hy
  refine ⟨_, ?_, hfinal, hsame.trans ⟨rfl, rfl, rfl⟩, fun k hk => ⟨?_, hdone k hk⟩⟩
  · rw [screenReflush, List.range_eq_range', hs₁, ok_bind, hmove]
  · have hne : s₁.oldScreen k ≠ 0 := hdone k hk ▸ (hsync.printable k hk).ne_zero
    exact (hfinal.shown k hk hne).trans (hdone k hk)

end Reflush

section Fill

def filled (a k : Nat) (g f : Nat → UInt8) (c : Nat) : UInt8 := if a ≤ c ∧ c < k then g c else f c

theorem filled_self (a : Nat) (g f : Nat → UInt8) : filled a a g f = f := by
  funext c
  exact if_neg (by omega)

theorem update_filled {a k : Nat} (g f : Nat → UInt8) (h : a ≤ k) :
    Function.update (filled a k g f) k (g k) = filled a (k + 1) g f := by
  funext c
  by_cases hc : c = k
  · rw [hc, Function.update_self, filled, if_pos ⟨h, by omega⟩]
  · have hiff : (a ≤ c ∧ c < k + 1) ↔ (a ≤ c ∧ c < k) := by omega
    rw [Function.update_of_ne hc, filled, filled]
    simp only [hiff]

theorem putNew_subscript {i j : Nat} (hi : i < screenHeight) (hj : j < screenWidth) (ch : UInt8)
    (s : Console) :
    putNew (subscript i j) ch s =
      .ok { s with newScreen := Function.update s.newScreen (i * screenWidth + j) ch } := by
  rw [putNew, index_subscript hi hj]
  rfl

theorem putOld_subscript {i j : Nat} (hi : i < screenHeight) (hj : j < screenWidth) (ch : UInt8)
    (s : Console) :
    putOld (subscript i j) ch s =
      .ok { s with oldScreen := Function.update s.oldScreen (i * screenWidth + j) ch } := by
  rw [putOld, index_subscript hi hj]
  rfl

def blanked (s : Console) : Console :=
  { s with
    cursorX := 0
    cursorY := 0
    newScreen := filled 0 (screenHeight * screenWidth) (fun _ => 32) s.newScreen
    oldScreen := filled 0 (screenHeight * screenWidth) (fun _ => 0) s.oldScreen }

theorem screenClear_eq (line1 line2 : Int) (s : Console) :
    screenClear line1 line2 s = screenReflush (blanked s) := by
  obtain ⟨s₁, hs₁, rfl⟩ := forCells_ok (a := 0) (n := screenHeight) (s := s)
    (f := fun i j s => putNew (subscript i j) 32 s >>= putOld (subscript i j) 0)
    (I := fun k s' => s' = { s with
      newScreen := filled 0 k (fun _ => 32) s.newScreen
      oldScreen := filled 0 k (fun _ => 0) s.oldScreen })
    (by simp only [Nat.zero_mul, filled_self]) (by
      rintro i j s₁ - hi hj rfl
      rw [Nat.zero_add] at hi
      refine ⟨_, by rw [putNew_subscript hi hj, ok_bind, putOld_subscript hi hj], ?_⟩
      rw [update_filled (fun _ => 32) _ (Nat.zero_le _), update_filled (fun _ => 0) _
        (Nat.zero_le _)])
  rw [Nat.zero_add] at hs₁
  rw [screenClear, List.range_eq_range', hs₁, ok_bind, blanked]

theorem inside_blanked (s : Console) : Inside (blanked s) :=
  ⟨Int.le_refl 0, Int.natCast_pos.mpr (by decide), Int.le_refl 0, Int.natCast_pos.mpr (by decide)⟩

theorem synced_blanked (h : (t.feed s.sent).mode = .ground) : Synced t (blanked s) := by
  refine ⟨h, fun k hk => ?_, fun k hk hold => ?_⟩
  · simp only [blanked, filled, if_pos (And.intro (Nat.zero_le k) hk)]
    decide
  · simp only [blanked, filled, if_pos (And.intro (Nat.zero_le k) hk)] at hold
    exact absurd rfl hold

def scrolled (line1 line2 : Nat) (s : Console) : Console :=
  { s with
    oldScreen := filled (line1 * screenWidth) ((line2 + 1) * screenWidth) (fun _ => 0) s.oldScreen
    newScreen := filled (line1 * screenWidth) ((line2 + 1) * screenWidth)
      (fun c => if line2 * screenWidth ≤ c then 32 else s.newScreen (c + screenWidth)) s.newScreen }

theorem screenScroll_eq {line1 line2 : Nat} (h1 : line1 ≤ line2) (h2 : line2 < screenHeight)
    (s : Console) :
    screenScroll line1 line2 s = .ok (scrolled line1 line2 s) := by
  have hend : line1 + (line2 + 1 - line1) = line2 + 1 := by omega
  let a := line1 * screenWidth
  let g := fun c => if line2 * screenWidth ≤ c then 32 else s.newScreen (c + screenWidth)
  obtain ⟨s₁, hs₁, rfl⟩ := forCells_ok (a := line1) (n := line2 + 1 - line1) (s := s)
    (f := fun i j => putOld (subscript i j) 0)
    (I := fun k s' => s' = { s with oldScreen := filled a k (fun _ => 0) s.oldScreen })
    (by rw [filled_self]) (by
      rintro i j s₁ hi₁ hi hj rfl
      have hle : a ≤ i * screenWidth + j :=
        (Nat.mul_le_mul_right _ hi₁).trans (Nat.le_add_right _ _)
      exact ⟨_, putOld_subscript (by omega) hj _ _, by rw [update_filled (fun _ => 0) _ hle]⟩)
  rw [hend] at hs₁
  let s₁ : Console :=
    { s with oldScreen := filled a ((line2 + 1) * screenWidth) (fun _ => 0) s.oldScreen }
  obtain ⟨s₂, hs₂, rfl⟩ := forCells_ok (a := line1) (n := line2 + 1 - line1) (s := s₁)
    (f := fun i j s => do
      if i = line2 then putNew (subscript i j) 32 s
      else putNew (subscript i j) (s.newScreen (← index (subscript (i + 1) j))) s)
    (I := fun k s' => s' = { s₁ with newScreen := filled a k g s.newScreen })
    (by rw [filled_self]) (by
      -- a line is read before it is written, since the loop goes downwards
      rintro i j s₂ hi₁ hi hj rfl
      have hle : a ≤ i * screenWidth + j :=
        (Nat.mul_le_mul_right _ hi₁).trans (Nat.le_add_right _ _)
      refine ⟨_, ?_, congrArg (fun f => { s₁ with newScreen := f }) (update_filled g s.newScreen
        hle)⟩
      by_cases hlast : i = line2
      · rw [if_pos hlast, putNew_subscript (by omega) hj]
        simp [g, hlast]
      · have hlt : i + 1 ≤ line2 := by omega
        have hbelow : (i + 1) * screenWidth + j = i * screenWidth + j + screenWidth := by
          rw [Nat.succ_mul]
          omega
        have hnext : (i + 1) * screenWidth ≤ line2 * screenWidth := Nat.mul_le_mul_right _ hlt
        rw [Nat.succ_mul] at hnext
        have hread : filled a (i * screenWidth + j) g s.newScreen
          (i * screenWidth + j + screenWidth) =
            g (i * screenWidth + j) := by
          rw [filled, if_neg (by omega)]
          exact (if_neg (by omega)).symm
        rw [if_neg hlast, index_subscript (by omega) hj, ok_bind, hbelow, putNew_subscript
          (by omega) hj, ← hread])
  rw [hend] at hs₂
  rw [screenScroll, hs₁, ok_bind, hs₂]
  rfl

theorem screenClear_ok (line1 line2 : Int) (h : (t.feed s.sent).mode = .ground) :
    ∃ s', screenClear line1 line2 s = .ok s' ∧ Synced t s' ∧ Inside s' ∧ ShowsAll t s' := by
  obtain ⟨s', hs', hsync, hsame, hall⟩ := screenReflush_ok (synced_blanked h) (inside_blanked s)
  exact ⟨s', (screenClear_eq line1 line2 s).trans hs', hsync, hsame.inside (inside_blanked s), hall⟩

end Fill

section Write

theorem Synced.scroll (h : Synced t s) {line1 line2 : Nat} (h2 : line2 < screenHeight) :
    Synced t (scrolled line1 line2 s) := by
  refine ⟨h.ground, fun k hk => ?_, fun k hk hold => ?_⟩
  · simp only [scrolled, filled]
    split
    · split
      · decide
      · next hrange hlast =>
        have hnext : line2 * screenWidth + screenWidth ≤ screenHeight * screenWidth := by
          rw [← Nat.succ_mul]
          exact Nat.mul_le_mul_right _ h2
        exact h.printable _ (by omega)
    · exact h.printable k hk
  · simp only [scrolled, filled] at hold ⊢
    split at hold
    · exact absurd rfl hold
    · next hrange =>
      rw [if_neg hrange]
      exact h.shown k hk hold

theorem keepInside_ok (h : Synced t s) (hx0 : 0 ≤ s.cursorX) (hx : s.cursorX < screenWidth)
    (hy0 : 0 ≤ s.cursorY) :
    ∃ s', keepInside s = .ok s' ∧ Synced t s' ∧ Inside s' := by
  have hkeep : keepInside s = if s.cursorY ≥ screenHeight then do
      let s ← screenScroll (screenHeight / 2 + 1) (screenHeight - 1) s
      return { s with cursorX := 0, cursorY := screenHeight - 1 } else .ok s := by
    simp only [keepInside, Int.not_lt.mpr hx0, Int.not_le.mpr hx, Int.not_lt.mpr hy0, if_false,
      ge_iff_le]
  rw [hkeep]
  by_cases hlast : s.cursorY ≥ screenHeight
  · rw [if_pos hlast, screenScroll_eq (by decide) (by decide), ok_bind]
    have hscroll : Synced t (scrolled (screenHeight / 2 + 1) (screenHeight - 1) s) :=
      h.scroll (by decide)
    refine ⟨_, rfl, ⟨hscroll.ground, hscroll.printable, hscroll.shown⟩, ⟨?_, ?_, ?_, ?_⟩⟩
    all_goals simp [screenHeight, screenWidth]
  · rw [if_neg hlast]
    exact ⟨s, rfl, h, hx0, hx, hy0, by omega⟩

theorem keepInside_wrap (hx : s.cursorX = screenWidth) :
    keepInside s = keepInside { s with cursorX := 0, cursorY := int (s.cursorY + 1) } := by
  have h0 : ¬ s.cursorX < 0 := by omega
  have hw : (screenWidth : Int) ≤ s.cursorX := by omega
  have hpos : ¬ (screenWidth : Int) ≤ 0 := by decide
  simp only [keepInside, h0, hw, hpos, if_false, if_true, ge_iff_le, Int.lt_irrefl]

def Writable (ch : UInt8) : Prop := Vt100.Printable ch ∨ ch = 10 ∨ ch = 13 ∨ ch = 8

theorem Inside.index_cursor (h : Inside s) :
    ∃ k < screenHeight * screenWidth, index (cursorIndex s) = .ok k := by
  obtain ⟨hl, hr, ht, hb⟩ := h
  simp only [screenWidth, screenHeight] at hr hb
  have hmul : int (s.cursorY * screenWidth) = s.cursorY * screenWidth := by
    simp only [screenWidth]
    exact int_of_lt (by omega) (by omega)
  have hsum : cursorIndex s = s.cursorY * screenWidth + s.cursorX := by
    rw [cursorIndex, hmul]
    simp only [screenWidth]
    exact int_of_lt (by omega) (by omega)
  rw [hsum, index, if_pos]
  · refine ⟨_, ?_, rfl⟩
    simp only [screenWidth, screenHeight]
    omega
  · simp only [screenWidth, screenHeight]
    omega

theorem Synced.putNew {k : Nat} {ch : UInt8} (h : Synced t s) (hch : Vt100.Printable ch) :
    Synced t { s with newScreen := Function.update s.newScreen k ch } := by
  refine ⟨h.ground, fun c hc => ?_, h.shown⟩
  by_cases hck : c = k
  · simpa [hck] using hch
  · simpa [hck] using h.printable c hc

theorem newline_ok (h : Synced t s) (ht : 0 ≤ s.cursorY) (hb : s.cursorY < screenHeight) :
    ∃ s', keepInside { s with cursorX := 0, cursorY := int (s.cursorY + 1) } = .ok s' ∧
    Synced t s' ∧ Inside s' := by
  have hint : int (s.cursorY + 1) = s.cursorY + 1 := by
    simp only [screenHeight] at hb
    exact int_of_lt (by omega) (by omega)
  rw [hint]
  exact keepInside_ok ⟨h.ground, h.printable, h.shown⟩ (Int.le_refl 0) (Int.natCast_pos.mpr
    (by decide))
    (by simp only; omega)

theorem screenWriteCh_ok {ch : UInt8} (hch : Writable ch) (h : Synced t s) (hin : Inside s) :
    ∃ s', screenWriteCh ch s = .ok s' ∧ Synced t s' ∧ Inside s' := by
  rw [screenWriteCh]
  by_cases hnl : ch = 10
  · rw [if_pos hnl]
    exact newline_ok h hin.top hin.bottom
  rw [if_neg hnl]
  by_cases hbs : ch = 8
  · rw [if_pos hbs]
    split
    · next hpos =>
      have hin' : Inside { s with cursorX := s.cursorX - 1 } :=
        ⟨by simp only; omega, by have := hin.right; simp only; omega, hin.top, hin.bottom⟩
      obtain ⟨k, -, hk⟩ := hin'.index_cursor
      simp only [putNew, hk, ok_bind, pure_eq_ok]
      have hsync : Synced t { s with cursorX := s.cursorX - 1 } := ⟨h.ground, h.printable, h.shown⟩
      exact keepInside_ok (hsync.putNew (by decide)) hin'.left hin'.right hin'.top
    · exact keepInside_ok h hin.left hin.right hin.top
  rw [if_neg hbs]
  by_cases hcr : ch = 13
  · rw [if_pos hcr]
    exact newline_ok h hin.top hin.bottom
  rw [if_neg hcr]
  have hprint : Vt100.Printable ch := by
    rcases hch with hp | hc | hc | hc
    · exact hp
    · exact absurd hc hnl
    · exact absurd hc hcr
    · exact absurd hc hbs
  obtain ⟨k, -, hk⟩ := hin.index_cursor
  have hint : int (s.cursorX + 1) = s.cursorX + 1 := by
    have := hin.left
    have hr := hin.right
    simp only [screenWidth] at hr
    exact int_of_lt (by omega) (by omega)
  simp only [putNew, hk, ok_bind, pure_eq_ok, hint]
  have hsync := h.putNew (k := k) hprint
  by_cases hwrap : s.cursorX + 1 = screenWidth
  · rw [keepInside_wrap hwrap]
    exact newline_ok ⟨hsync.ground, hsync.printable, hsync.shown⟩ hin.top hin.bottom
  · have hl := hin.left
    have hr := hin.right
    exact keepInside_ok ⟨hsync.ground, hsync.printable, hsync.shown⟩ (by simp only; omega)
      (by simp only; omega)
      hin.top

end Write

section Run

/-- The calls in question: text of printable characters, newlines, carriage returns and backspaces,
and moves to positions on the screen. -/
def Op.Valid : Op → Prop
  | .write buff | .doWrite buff => ∀ ch ∈ buff, Writable ch
  | .moveCursor x y => 0 ≤ x ∧ x < screenWidth ∧ 0 ≤ y ∧ y < screenHeight
  | .clear _ _ | .reflush => True

def Op.Reflushes : Op → Prop
  | .clear _ _ | .reflush | .doWrite _ => True
  | .write _ | .moveCursor _ _ => False

theorem screenWrite_ok {buff : Text} (hbuff : ∀ ch ∈ buff, Writable ch) (h : Synced t s)
    (hin : Inside s) :
    ∃ s', screenWrite buff s = .ok s' ∧ Synced t s' ∧ Inside s' := by
  rw [screenWrite]
  have hmem : ∀ ch ∈ buff.takeWhile (· ≠ 0), Writable ch :=
    fun ch hch => hbuff ch (List.takeWhile_subset _ hch)
  generalize buff.takeWhile (· ≠ 0) = l at hmem
  induction l generalizing s with
  | nil => exact ⟨s, rfl, h, hin⟩
  | cons ch l ih =>
    obtain ⟨s₁, hs₁, h₁, hin₁⟩ := screenWriteCh_ok (hmem ch List.mem_cons_self) h hin
    rw [List.foldlM_cons, hs₁, ok_bind]
    exact ih h₁ hin₁ fun c hc => hmem c (List.mem_cons_of_mem _ hc)

theorem exec_ok {op : Op} (hop : op.Valid) (h : Synced t s) (hin : Inside s) :
    ∃ s', exec op s = .ok s' ∧ Synced t s' ∧ Inside s' ∧ (op.Reflushes → ShowsAll t s') := by
  cases op with
  | write buff =>
    obtain ⟨s', hs', h', hin'⟩ := screenWrite_ok hop h hin
    exact ⟨s', hs', h', hin', False.elim⟩
  | moveCursor x y =>
    obtain ⟨hx0, hx, hy0, hy⟩ := hop
    exact ⟨_, rfl, ⟨h.ground, h.printable, h.shown⟩, ⟨hx0, hx, hy0, hy⟩, False.elim⟩
  | clear line1 line2 =>
    obtain ⟨s', hs', h', hin', hall⟩ := screenClear_ok line1 line2 h.ground
    exact ⟨s', hs', h', hin', fun _ => hall⟩
  | reflush =>
    obtain ⟨s', hs', h', hsame, hall⟩ := screenReflush_ok h hin
    exact ⟨s', hs', h', hsame.inside hin, fun _ => hall⟩
  | doWrite buff =>
    obtain ⟨s₁, hs₁, h₁, hin₁⟩ := screenWrite_ok hop h hin
    obtain ⟨s', hs', h', hsame, hall⟩ := screenReflush_ok h₁ hin₁
    refine ⟨s', ?_, h', hsame.inside hin₁, fun _ => hall⟩
    rw [exec, doWrite, hs₁, ok_bind, hs']

theorem vt100HiddenCursor_eq (s : Console) :
    vt100HiddenCursor s = .ok { s with sent := s.sent ++ [27, 91, 63, 50, 53, 108] } := by
  have hprintk : printk [37, 99, 91, 63, 50, 53, 108] [.word 27] = some [27, 91, 63, 50, 53, 108] :=
    by decide
  rw [vt100HiddenCursor, portWrite, hprintk]

theorem vt100Clear_eq (s : Console) :
    vt100Clear s = .ok { s with sent := s.sent ++ [27, 91, 50, 74] } := by
  have hprintk : printk [37, 99, 91, 50, 74] [.word 27] = some [27, 91, 50, 74] := by decide
  rw [vt100Clear, portWrite, hprintk]

theorem initScreen_ok (ht : (t.feed s.sent).mode = .ground) :
    ∃ s', initScreen s = .ok s' ∧ Synced t s' ∧ Inside s' := by
  have hground : (t.feed (s.sent ++ [27, 91, 63, 50, 53, 108] ++ [27, 91, 50, 74])).mode =
      .ground := by
    rw [Vt100.Terminal.feed_append, Vt100.Terminal.feed_append]
    generalize t.feed s.sent = u at ht
    simp [Vt100.Terminal.feed, Vt100.Terminal.receive, Vt100.Terminal.obey, ht]
  rw [initScreen, vt100HiddenCursor_eq, ok_bind, vt100Clear_eq, ok_bind]
  obtain ⟨s', hs', h', hin', -⟩ := screenClear_ok (s := { s with
    sent := s.sent ++ [27, 91, 63, 50, 53, 108] ++ [27, 91, 50, 74] }) 0 (screenHeight - 1) hground
  exact ⟨s', hs', h', hin'⟩

theorem run_ok (ht : (t.feed s.sent).mode = .ground) {ops : List Op} (hops : ∀ op ∈ ops, op.Valid) :
    ∃ s', run ops s = .ok s' ∧ Synced t s' ∧ Inside s' := by
  obtain ⟨s₁, hs₁, h₁, hin₁⟩ := initScreen_ok ht
  rw [run, hs₁, ok_bind]
  clear hs₁
  induction ops generalizing s₁ with
  | nil => exact ⟨s₁, rfl, h₁, hin₁⟩
  | cons op ops ih =>
    obtain ⟨s₂, hs₂, h₂, hin₂, -⟩ := exec_ok (hops op List.mem_cons_self) h₁ hin₁
    rw [List.foldlM_cons, hs₂, ok_bind]
    exact ih (fun o ho => hops o (List.mem_cons_of_mem _ ho)) s₂ h₂ hin₂

/-- After `init_screen` and any such calls the cursor is on the screen, and after a call that ends
with `screen_reflush` the terminal shows `new_screen` in every cell, however few cells were sent. -/
theorem reflush_shows_all (ht : (t.feed s.sent).mode = .ground) {ops : List Op}
    (hops : ∀ op ∈ ops, op.Valid) :
    ∃ s₁, run ops s = .ok s₁ ∧ Inside s₁ ∧
      ∀ op, op.Valid → op.Reflushes → ∃ s₂, exec op s₁ = .ok s₂ ∧ Inside s₂ ∧ ShowsAll t s₂ := by
  obtain ⟨s₁, hs₁, h₁, hin₁⟩ := run_ok ht hops
  refine ⟨s₁, hs₁, hin₁, fun op hop href => ?_⟩
  obtain ⟨s₂, hs₂, -, hin₂, hall⟩ := exec_ok hop h₁ hin₁
  exact ⟨s₂, hs₂, hin₂, hall href⟩

theorem reflush_shows_all_scrolled :
    ∃ s₁ s₂, run [.moveCursor 79 59, .write [65]] ⟨0, 0, fun _ => 0, fun _ => 0, []⟩ = .ok s₁ ∧
      exec .reflush s₁ = .ok s₂ ∧ ShowsAll ⟨.ground, 1, 1, fun r c => (r, c + 1), fun _ _ => 42⟩
      s₂ := by
  have hops : ∀ op ∈ [Op.moveCursor 79 59, .write [65]], op.Valid := by
    intro op hop
    simp only [List.mem_cons, List.not_mem_nil, or_false] at hop
    rcases hop with rfl | rfl
    · exact ⟨by decide, by decide, by decide, by decide⟩
    · intro ch hch
      rw [List.mem_singleton.mp hch]
      exact .inl (by decide)
  obtain ⟨s₁, hs₁, -, hnext⟩ := reflush_shows_all
    (t := ⟨.ground, 1, 1, fun r c => (r, c + 1), fun _ _ => 42⟩) (s := ⟨0, 0, fun _ => 0, fun _ =>
      0, []⟩) rfl hops
  obtain ⟨s₂, hs₂, -, hall⟩ := hnext .reflush trivial trivial
  exact ⟨s₁, s₂, hs₁, hs₂, hall⟩

end Run

end Ucas.Screen

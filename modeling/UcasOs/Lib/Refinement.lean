import Mathlib.Tactic.Common

/-! Refinement of fallible programs by a partial abstract program. The abstract program may stop
with an error that the concrete one must stop with too, or with `none`: then it does not say what
the concrete program does. -/

namespace Ucas.Lib

universe u
variable {ε : Type*} {α α' β β' : Type u}

def exactly (c : Except ε α) : Except (Option ε) α := c.mapError some

@[simp] theorem exactly_ok (x : α) : exactly (.ok x : Except ε α) = .ok x := rfl

@[simp] theorem exactly_error (e : ε) : exactly (.error e : Except ε α) = .error (some e) := rfl

theorem ok_bind (x : α) (f : α → Except ε α') : (Except.ok x >>= f) = f x := rfl

theorem pure_eq_ok (x : α) : (pure x : Except ε α) = .ok x := rfl

inductive Refines (R : α → β → Prop) (c : Except ε α) : Except (Option ε) β → Prop
  | done {x : α} {y : β} (hc : c = .ok x) (h : R x y) : Refines R c (.ok y)
  | error {e : ε} (hc : c = .error e) : Refines R c (.error (some e))
  | outside : Refines R c (.error none)

namespace Refines
variable {R : α → β → Prop} {S : α' → β' → Prop} {c : Except ε α} {a : Except (Option ε) β}

theorem ok {x : α} {y : β} (h : R x y) : Refines R (.ok x : Except ε α) (.ok y) := .done rfl h

theorem refl (c : Except ε α) : Refines Eq c (exactly c) := by
  cases c with
  | ok x => exact .ok rfl
  | error e => exact .error rfl

theorem bind {f : α → Except ε α'} {g : β → Except (Option ε) β'} (h : Refines R c a)
    (hf : ∀ x y, c = .ok x → a = .ok y → R x y → Refines S (f x) (g y)) :
    Refines S (c >>= f) (a >>= g) := by
  cases h with
  | done hc h =>
    have hxy := hf _ _ hc rfl h
    rw [hc]
    exact hxy
  | error hc =>
    rw [hc]
    exact .error rfl
  | outside => exact .outside

theorem guard {g : β → Except (Option ε) β'} {c : Except ε α'} {a : Except (Option ε) β}
    (hnone : ∀ e, a = .error (some e) → c = .error e) (hf : ∀ y, a = .ok y → Refines S c (g y)) :
    Refines S c (a >>= g) := by
  match a with
  | .ok y => exact hf y rfl
  | .error (some e) => exact .error (hnone e rfl)
  | .error none => exact .outside

theorem exists_ok {y : β} (h : Refines R c a) (ha : a = .ok y) : ∃ x, c = .ok x ∧ R x y := by
  subst ha
  cases h with
  | done hc h => exact ⟨_, hc, h⟩

theorem eq_error {e : ε} (h : Refines R c a) (ha : a = .error (some e)) : c = .error e := by
  subst ha
  cases h with
  | error hc => exact hc

theorem map {f : α → α'} {g : β → β'} (h : Refines R c a) (hf : ∀ x y, R x y → S (f x) (g y)) :
    Refines S (f <$> c) (g <$> a) := by
  cases h with
  | done hc h =>
    rw [hc]
    exact .ok (hf _ _ h)
  | error hc =>
    rw [hc]
    exact .error rfl
  | outside => exact .outside

theorem foldlM {γ : Type*} {f : α → γ → Except ε α} {g : β → γ → Except (Option ε) β} {l : List γ}
    {x : α}
    {y : β} (h : R x y) (hf : ∀ x y c, R x y → Refines R (f x c) (g y c)) :
    Refines R (l.foldlM f x) (l.foldlM g y) := by
  induction l generalizing x y with
  | nil => exact ok h
  | cons c l ih =>
    rw [List.foldlM_cons, List.foldlM_cons]
    exact (hf x y c h).bind fun x' y' _ _ h' => ih h'

end Refines

inductive Ensures (may : ε → Prop) (Q : β → Prop) : Except (Option ε) β → Prop
  | ok {y : β} (h : Q y) : Ensures may Q (.ok y)
  | error {e : ε} (h : may e) : Ensures may Q (.error (some e))

namespace Ensures
variable {may : ε → Prop} {P : β → Prop} {Q : β' → Prop} {a : Except (Option ε) β}

theorem bind {f : β → Except (Option ε) β'} (h : Ensures may P a)
    (hf : ∀ y, a = .ok y → P y → Ensures may Q (f y)) : Ensures may Q (a >>= f) := by
  cases h with
  | ok h => exact hf _ rfl h
  | error h => exact .error h

theorem weaken {Q : β → Prop} (h : Ensures may P a) (hQ : ∀ y, P y → Q y) : Ensures may Q a := by
  cases h with
  | ok h => exact .ok (hQ _ h)
  | error h => exact .error h

theorem of_ok {y : β} (h : Ensures may P a) (ha : a = .ok y) : P y := by
  subst ha
  cases h with
  | ok h => exact h

theorem exactly {c : Except ε β} (hok : ∀ y, c = .ok y → P y) (herr : ∀ e, c = .error e → may e) :
    Ensures may P (Lib.exactly c) := by
  cases c with
  | ok y => exact .ok (hok y rfl)
  | error e => exact .error (herr e rfl)

theorem foldlM {γ : Type*} {I : β → Prop} {f : β → γ → Except (Option ε) β} {l : List γ} {y : β}
    (hy : I y)
    (hf : ∀ y c, c ∈ l → I y → Ensures may I (f y c)) : Ensures may I (l.foldlM f y) := by
  induction l generalizing y with
  | nil => exact .ok hy
  | cons c l ih =>
    rw [List.foldlM_cons]
    exact (hf y c List.mem_cons_self hy).bind fun y' _ hy' =>
      ih hy' fun z d hd hz => hf z d (List.mem_cons_of_mem _ hd) hz

theorem exists_of_refines {R : α → β → Prop} {c : Except ε α} {x : α} (h : Ensures may P a)
    (hr : Refines R c a) (hc : c = .ok x) : ∃ y, a = .ok y ∧ R x y ∧ P y := by
  subst hc
  cases h with
  | ok h =>
    cases hr with
    | done hc hxy =>
      cases hc
      exact ⟨_, rfl, hxy, h⟩
  | error h =>
    cases hr with
    | error hc => cases hc

end Ensures

end Ucas.Lib

import Mathlib.Logic.Relation

/-! Forward simulation of fallible programs by a transition relation. A program state `s` stands for
an abstract state `a` when `R s a`; a run of the program is matched by abstract steps `T`, and a run
that fails must have come to an abstract state in `stuck`. -/

namespace Ucas.Lib
open Relation

universe u

variable {κ σ ε β : Type*}

theorem invariant_of_path {T : σ → σ → Prop} {I : σ → Prop} (hstep : ∀ a a', I a → T a a' → I a')
    {a a' : σ} (ha : I a) (h : ReflTransGen T a a') : I a' := by
  induction h with
  | refl => exact ha
  | tail _ hbc ih => exact hstep _ _ ih hbc

theorem path_of_foldlM {f : κ → β → Except ε κ} {l : List β} {s s' : κ}
    (h : l.foldlM f s = .ok s') :
    ReflTransGen (fun s s' => ∃ x ∈ l, f s x = .ok s') s s' := by
  induction l generalizing s with
  | nil => exact Except.ok.inj h ▸ .refl
  | cons x l ih =>
    rw [List.foldlM_cons] at h
    cases hs : f s x with
    | error e => simp [hs, bind, Except.bind] at h
    | ok s₁ =>
      have hrest := ih (by simpa only [hs, bind, Except.bind] using h)
      refine .head ⟨x, List.mem_cons_self, hs⟩ (ReflTransGen.mono ?_ _ _ hrest)
      exact fun _ _ ⟨y, hy, hrun⟩ => ⟨y, List.mem_cons_of_mem _ hy, hrun⟩

theorem foldlM_range'_ok {f : κ → Nat → Except ε κ} {I : Nat → κ → Prop} {a n : Nat} {s : κ}
    (hs : I a s)
    (hf : ∀ k s, a ≤ k → k < a + n → I k s → ∃ s', f s k = .ok s' ∧ I (k + 1) s') :
    ∃ s', (List.range' a n).foldlM f s = .ok s' ∧ I (a + n) s' := by
  induction n generalizing a s with
  | zero => exact ⟨s, rfl, hs⟩
  | succ n ih =>
    obtain ⟨s₁, hs₁, hI⟩ := hf a s (Nat.le_refl a) (by omega) hs
    obtain ⟨s', hs', hI'⟩ := ih hI fun k s hak hk => hf k s (by omega) (by omega)
    refine ⟨s', ?_, by rwa [show a + (n + 1) = a + 1 + n by omega]⟩
    rw [List.range'_succ, List.foldlM_cons, hs₁]
    exact hs'

def checked (check : κ → β → Bool) (err : ε) (f : κ → β → Except ε κ) (s : κ) (x : β) :
    Except ε κ :=
  if check s x then f s x else .error err

theorem path_of_checked {check : κ → β → Bool} {err : ε} {f : κ → β → Except ε κ} {l : List β}
    {s s' : κ}
    (h : l.foldlM (checked check err f) s = .ok s') :
    ReflTransGen (fun s s' => ∃ x, check s x = true ∧ f s x = .ok s') s s' := by
  refine ReflTransGen.mono ?_ _ _ (path_of_foldlM h)
  rintro s s' ⟨x, -, hx⟩
  rw [checked] at hx
  split at hx
  · next hcheck => exact ⟨x, hcheck, hx⟩
  · cases hx

theorem exists_of_bind_ok {α γ : Type u} {r : Except ε α} {f : α → Except ε γ} {t : γ}
    (h : r >>= f = .ok t) :
    ∃ s, r = .ok s ∧ f s = .ok t := by
  cases r with
  | error e => cases h
  | ok s => exact ⟨s, rfl, h⟩

def Simulates (R : κ → σ → Prop) (T : σ → σ → Prop) (stuck : σ → Prop) (a : σ) : Except ε κ → Prop
  | .ok s => ∃ a', ReflTransGen T a a' ∧ R s a'
  | .error _ => ∃ a', ReflTransGen T a a' ∧ stuck a'

namespace Simulates
variable {R S : κ → σ → Prop} {T T' : σ → σ → Prop} {stuck : σ → Prop} {a b : σ}
  {r : Except ε κ} {s : κ}

theorem ok (h : R s a) : Simulates R T stuck a (.ok s : Except ε κ) := ⟨a, .refl, h⟩

theorem error (e : ε) (h : stuck a) : Simulates R T stuck a (.error e) := ⟨a, .refl, h⟩

theorem of_ok (h : Simulates R T stuck a r) (hr : r = .ok s) : ∃ b, ReflTransGen T a b ∧ R s b := by
  rw [hr] at h
  exact h

theorem after (hab : ReflTransGen T a b) (h : Simulates R T stuck b r) :
    Simulates R T stuck a r := by
  cases r with
  | ok s => exact h.imp fun a' h => ⟨hab.trans h.1, h.2⟩
  | error e => exact h.imp fun a' h => ⟨hab.trans h.1, h.2⟩

theorem step (hab : T a b) (h : Simulates R T stuck b r) : Simulates R T stuck a r :=
  h.after (.single hab)

theorem bind {f : κ → Except ε κ} (h : Simulates R T stuck a r)
    (hf : ∀ s b, r = .ok s → ReflTransGen T a b → R s b → Simulates S T stuck b (f s)) :
    Simulates S T stuck a (r >>= f) := by
  cases r with
  | ok s =>
    obtain ⟨b, hab, hb⟩ := h
    exact (hf s b rfl hab hb).after hab
  | error e => exact h

theorem weaken (h : Simulates R T stuck a r) (hT : ∀ b c, T b c → T' b c)
    (hR : ∀ s b, r = .ok s → ReflTransGen T a b → R s b → S s b) : Simulates S T' stuck a r := by
  cases r with
  | ok s =>
    obtain ⟨b, hab, hb⟩ := h
    exact ⟨b, ReflTransGen.mono hT _ _ hab, hR s b rfl hab hb⟩
  | error e =>
    obtain ⟨b, hab, hb⟩ := h
    exact ⟨b, ReflTransGen.mono hT _ _ hab, hb⟩

theorem foldlM {f : κ → β → Except ε κ} {l : List β} (hs : R s a)
    (hf : ∀ s b x, x ∈ l → ReflTransGen T a b → R s b → Simulates R T stuck b (f s x)) :
    Simulates R T stuck a (l.foldlM f s) := by
  induction l generalizing s a with
  | nil => exact ok hs
  | cons x l ih =>
    rw [List.foldlM_cons]
    refine (hf s a x List.mem_cons_self .refl hs).bind fun s' b _ hab hb => ih hb ?_
    exact fun s'' c y hy hbc => hf s'' c y (List.mem_cons_of_mem _ hy) (hab.trans hbc)

end Simulates

end Ucas.Lib

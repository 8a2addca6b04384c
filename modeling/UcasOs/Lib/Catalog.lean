import Mathlib.Data.Set.Card
import Mathlib.Data.Finite.Prod

/-! Objects named by slots of other objects. Each object in use keeps a count of its names, and the
ones with slots are found from a root. -/

namespace Ucas.Lib

structure Catalog (ι κ : Type*) where
  used : Set ι
  dirs : Set ι
  entry : ι × κ → Option ι
  home : ι → ι
  links : ι → Nat

namespace Catalog
variable {ι κ : Type*}

def names (c : Catalog ι κ) (q : ι) : Set (ι × κ) := { x | c.entry x = some q }

inductive Reaches (c : Catalog ι κ) (root : ι) : ι → Prop
  | root : Reaches c root root
  | child {p q : ι} {k : κ} (hp : Reaches c root p) (hk : c.entry (p, k) = some q)
    (hq : q ∈ c.dirs) :
    Reaches c root q

structure Sound (root : ι) (c : Catalog ι κ) : Prop where
  start : root ∈ c.dirs
  dirs : c.dirs ⊆ c.used
  slot : ∀ x q, c.entry x = some q → x.1 ∈ c.dirs
  target : ∀ x q, c.entry x = some q → q ∈ c.used ∧ q ≠ root
  named : ∀ q ∈ c.used, q ≠ root → (c.names q).Nonempty
  links : ∀ q ∈ c.used, q ≠ root → c.links q = (c.names q).ncard
  reaches : ∀ p ∈ c.dirs, c.Reaches root p
  home : ∀ p ∈ c.dirs, p ≠ root → ∃ k, c.entry (c.home p, k) = some p

/-- One entry changes, and with it the object that it names. -/
inductive Step [DecidableEq ι] [DecidableEq κ] (c c' : Catalog ι κ) : Prop
  | keep (hused : c'.used = c.used) (hdirs : c'.dirs = c.dirs) (hentry : c'.entry = c.entry)
      (hlinks : ∀ q ∈ c.used, c'.links q = c.links q) (hhome : ∀ p ∈ c.dirs, c'.home p = c.home p)
  | make {x : ι × κ} {q : ι} (hx : x.1 ∈ c.dirs) (hfree : c.entry x = none) (hq : q ∉ c.used)
      (hused : c'.used = insert q c.used) (hdirs : c'.dirs = c.dirs ∨ c'.dirs = insert q c.dirs)
      (hentry : c'.entry = Function.update c.entry x (some q)) (hcount : c'.links q = 1)
      (hlinks : ∀ p ∈ c.used, c'.links p = c.links p) (hhome : ∀ p ∈ c.dirs, c'.home p = c.home p)
      (hup : q ∈ c'.dirs → c'.home q = x.1)
  | link {x : ι × κ} {q : ι} (hx : x.1 ∈ c.dirs) (hfree : c.entry x = none) (hq : q ∈ c.used)
    (hfile : q ∉ c.dirs)
      (hused : c'.used = c.used) (hdirs : c'.dirs = c.dirs) (hentry : c'.entry = Function.update
      c.entry x (some q))
      (hcount : c'.links q = c.links q + 1) (hlinks : ∀ p ∈ c.used, p ≠ q → c'.links p = c.links p)
      (hhome : ∀ p ∈ c.dirs, c'.home p = c.home p)
  | unlink {x : ι × κ} {q : ι} (hx : c.entry x = some q) (hlast : c.links q = 1) (hempty : ∀ k,
    c.entry (q, k) = none)
      (hused : c'.used = c.used \ {q}) (hdirs : c'.dirs = c.dirs \ {q})
      (hentry : c'.entry = Function.update c.entry x none)
      (hlinks : ∀ p ∈ c.used, p ≠ q → c'.links p = c.links p) (hhome : ∀ p ∈ c.dirs, p ≠ q →
      c'.home p = c.home p)

theorem Reaches.mono {c c' : Catalog ι κ} {root p : ι} (h : c.Reaches root p)
    (hentry : ∀ y q, c.entry y = some q → c'.entry y = some q)
    (hdirs : c.dirs ⊆ c'.dirs) : c'.Reaches root p := by
  induction h with
  | root => exact .root
  | child _ hk hq ih => exact .child ih (hentry _ _ hk) (hdirs hq)

section Names
variable [DecidableEq ι] [DecidableEq κ] {c c' : Catalog ι κ} {x : ι × κ} {q : ι}

theorem entry_update_some (hfree : c.entry x = none) (hentry : c'.entry = Function.update c.entry x
    (some q)) :
    (∀ y p, c.entry y = some p → c'.entry y = some p) ∧ ∀ y p, c'.entry y = some p → y = x ∧ p = q ∨
    c.entry y = some p := by
  refine ⟨fun y p hy => ?_, fun y p hy => ?_⟩
  · rw [hentry, Function.update_of_ne, hy]
    rintro rfl
    rw [hfree] at hy
    cases hy
  · rw [hentry, Function.update_apply] at hy
    split_ifs at hy with hyx
    · exact .inl ⟨hyx, (Option.some.inj hy).symm⟩
    · exact .inr hy

theorem names_update_some (hfree : c.entry x = none) (hentry : c'.entry = Function.update c.entry x
    (some q)) :
    c'.names q = insert x (c.names q) ∧ ∀ p, p ≠ q → c'.names p = c.names p := by
  refine ⟨?_, fun p hp => ?_⟩
  · ext y
    by_cases hy : y = x
    · simp [names, hentry, hy]
    · simp [names, hentry, hy]
  · ext y
    by_cases hy : y = x
    · simp [names, hentry, hy, hfree, hp.symm]
    · simp [names, hentry, hy]

theorem names_update_none (hx : c.entry x = some q) (hentry : c'.entry = Function.update c.entry x
    none) {p : ι} (hp : p ≠ q) :
    c'.names p = c.names p := by
  ext y
  by_cases hy : y = x
  · simp [names, hentry, hy, hx, hp.symm]
  · simp [names, hentry, hy]

end Names

theorem sound_of_root {root : ι} {c : Catalog ι κ} (hused : c.used = {root})
    (hdirs : c.dirs = {root}) (hentry : ∀ x, c.entry x = none) :
    Sound root c := by
  have hnone : ∀ x q, c.entry x ≠ some q := fun x q hx => by
    rw [hentry] at hx
    cases hx
  refine ⟨by rw [hdirs]; rfl, by rw [hdirs, hused], fun x q hx => absurd hx (hnone x q),
    fun x q hx => absurd hx (hnone x q), fun q hq hne => ?_, fun q hq hne => ?_, fun p hp => ?_,
      fun p hp hne => ?_⟩
  · rw [hused] at hq
    exact absurd hq hne
  · rw [hused] at hq
    exact absurd hq hne
  · rw [hdirs] at hp
    obtain rfl := hp
    exact .root
  · rw [hdirs] at hp
    exact absurd hp hne

namespace Sound
variable {root : ι} {c c' : Catalog ι κ} (h : Sound root c)
include h

theorem names_eq_empty {q : ι} (hq : q ∉ c.used) : c.names q = ∅ :=
  Set.eq_empty_iff_forall_notMem.mpr fun x hx => hq (h.target x q hx).1

theorem keep (hused : c'.used = c.used) (hdirs : c'.dirs = c.dirs) (hentry : c'.entry = c.entry)
    (hlinks : ∀ q ∈ c.used, c'.links q = c.links q) (hhome : ∀ p ∈ c.dirs, c'.home p = c.home p) :
    Sound root c' := by
  have hnames : ∀ q, c'.names q = c.names q := fun q => by rw [names, hentry, ← names]
  refine ⟨hdirs ▸ h.start, hdirs ▸ hused ▸ h.dirs, hdirs ▸ hentry ▸ h.slot, hused ▸ hentry ▸
    h.target, fun q hq hne => ?_,
    fun q hq hne => ?_, fun p hp => ?_, fun p hp hne => ?_⟩
  · rw [hnames]
    exact h.named q (hused ▸ hq) hne
  · rw [hnames, hlinks q (hused ▸ hq)]
    exact h.links q (hused ▸ hq) hne
  · rw [hdirs] at hp
    exact (h.reaches p hp).mono (fun y q hy => by rw [hentry, hy]) hdirs.ge
  · rw [hdirs] at hp
    rw [hentry, hhome p hp]
    exact h.home p hp hne

variable [DecidableEq ι] [DecidableEq κ] {x : ι × κ} {q : ι}

theorem make (hx : x.1 ∈ c.dirs) (hfree : c.entry x = none) (hq : q ∉ c.used)
    (hused : c'.used = insert q c.used) (hdirs : c'.dirs = c.dirs ∨ c'.dirs = insert q c.dirs)
    (hentry : c'.entry = Function.update c.entry x (some q)) (hcount : c'.links q = 1)
    (hlinks : ∀ p ∈ c.used, c'.links p = c.links p) (hhome : ∀ p ∈ c.dirs, c'.home p = c.home p)
    (hup : q ∈ c'.dirs → c'.home q = x.1) : Sound root c' := by
  obtain ⟨hnames, hother⟩ := names_update_some hfree hentry
  rw [h.names_eq_empty hq] at hnames
  have hold : c.dirs ⊆ c'.dirs := hdirs.elim (fun heq => heq.ge) fun heq => heq ▸ Set.subset_insert
    _ _
  have hdir : ∀ p ∈ c'.dirs, p = q ∨ p ∈ c.dirs :=
      fun p hp => hdirs.elim (fun heq => .inr (heq ▸ hp)) fun heq => by
    rwa [heq] at hp
  have hold' : ∀ p ∈ c'.used, p ≠ q → p ∈ c.used := fun p hp hne => by
    rw [hused] at hp
    exact hp.resolve_left hne
  obtain ⟨hsome, hback⟩ := entry_update_some hfree hentry
  have hx' : c'.entry (x.1, x.2) = some q := by rw [Prod.mk.eta, hentry, Function.update_self]
  refine ⟨hold h.start, fun p hp => ?_, fun y p hy => ?_, fun y p hy => ?_, fun p hp hne => ?_,
    fun p hp hne => ?_, fun p hp => ?_,
    fun p hp hne => ?_⟩
  · rw [hused]
    exact (hdir p hp).imp_right fun hp => h.dirs hp
  · obtain ⟨rfl, -⟩ | hy := hback y p hy
    · exact hold hx
    · exact hold (h.slot y p hy)
  · rw [hused]
    obtain ⟨-, rfl⟩ | hy := hback y p hy
    · exact ⟨Set.mem_insert _ _, fun heq => hq (heq ▸ h.dirs h.start)⟩
    · exact ⟨.inr (h.target y p hy).1, (h.target y p hy).2⟩
  · by_cases hpq : p = q
    · rw [hpq, hnames]
      exact Set.insert_nonempty _ _
    · rw [hother p hpq]
      exact h.named p (hold' p hp hpq) hne
  · by_cases hpq : p = q
    · rw [hpq, hnames, hcount, LawfulSingleton.insert_empty_eq, Set.ncard_singleton]
    · rw [hother p hpq, hlinks p (hold' p hp hpq)]
      exact h.links p (hold' p hp hpq) hne
  · obtain rfl | hp' := hdir p hp
    · exact .child ((h.reaches _ hx).mono hsome hold) hx' hp
    · exact (h.reaches p hp').mono hsome hold
  · obtain rfl | hp' := hdir p hp
    · exact ⟨x.2, hup hp ▸ hx'⟩
    · obtain ⟨k, hk⟩ := h.home p hp' hne
      exact ⟨k, hsome _ _ (hhome p hp' ▸ hk)⟩

theorem link [Finite ι] [Finite κ] (hx : x.1 ∈ c.dirs) (hfree : c.entry x = none) (hq : q ∈ c.used)
    (hfile : q ∉ c.dirs)
    (hused : c'.used = c.used) (hdirs : c'.dirs = c.dirs) (hentry : c'.entry = Function.update
    c.entry x (some q))
    (hcount : c'.links q = c.links q + 1) (hlinks : ∀ p ∈ c.used, p ≠ q → c'.links p = c.links p)
    (hhome : ∀ p ∈ c.dirs, c'.home p = c.home p) : Sound root c' := by
  obtain ⟨hnames, hother⟩ := names_update_some hfree hentry
  have hroot : q ≠ root := fun heq => hfile (heq ▸ h.start)
  obtain ⟨hsome, hback⟩ := entry_update_some hfree hentry
  refine ⟨hdirs ▸ h.start, hdirs ▸ hused ▸ h.dirs, fun y p hy => ?_, fun y p hy => ?_,
    fun p hp hne => ?_, fun p hp hne => ?_,
    fun p hp => (h.reaches p (hdirs ▸ hp)).mono hsome hdirs.ge, fun p hp hne => ?_⟩
  · rw [hdirs]
    obtain ⟨rfl, -⟩ | hy := hback y p hy
    · exact hx
    · exact h.slot y p hy
  · rw [hused]
    obtain ⟨-, rfl⟩ | hy := hback y p hy
    · exact ⟨hq, hroot⟩
    · exact h.target y p hy
  · rw [hused] at hp
    by_cases hpq : p = q
    · rw [hpq, hnames]
      exact Set.insert_nonempty _ _
    · rw [hother p hpq]
      exact h.named p hp hne
  · rw [hused] at hp
    by_cases hpq : p = q
    · have hnew : x ∉ c.names q := fun hmem => by
        have hmem : c.entry x = some q := hmem
        rw [hfree] at hmem
        cases hmem
      rw [hpq, hnames, hcount, Set.ncard_insert_of_notMem hnew, h.links q hq hroot]
    · rw [hother p hpq, hlinks p hp hpq]
      exact h.links p hp hne
  · rw [hdirs] at hp
    obtain ⟨k, hk⟩ := h.home p hp hne
    exact ⟨k, hsome _ _ (hhome p hp ▸ hk)⟩

theorem unlink (hx : c.entry x = some q) (hlast : c.links q = 1)
    (hempty : ∀ k, c.entry (q, k) = none)
    (hused : c'.used = c.used \ {q}) (hdirs : c'.dirs = c.dirs \ {q})
    (hentry : c'.entry = Function.update c.entry x none)
    (hlinks : ∀ p ∈ c.used, p ≠ q → c'.links p = c.links p) (hhome : ∀ p ∈ c.dirs, p ≠ q →
    c'.home p = c.home p) :
    Sound root c' := by
  obtain ⟨hq, hroot⟩ := h.target x q hx
  -- the entry is the only one that names the object
  have honly : ∀ y, c.entry y = some q → y = x := fun y hy => by
    have hcard := h.links q hq hroot
    rw [hlast] at hcard
    obtain ⟨z, hz⟩ := Set.ncard_eq_one.mp hcard.symm
    have hmem : ∀ w, c.entry w = some q → w = z := fun w hw => by
      have : w ∈ c.names q := hw
      rwa [hz] at this
    rw [hmem y hy, hmem x hx]
  have hsome : ∀ y p, c.entry y = some p → p ≠ q → c'.entry y = some p := fun y p hy hp => by
    rw [hentry, Function.update_of_ne, hy]
    rintro rfl
    exact hp (Option.some.inj (hy.symm.trans hx))
  have hback : ∀ y p, c'.entry y = some p → c.entry y = some p ∧ p ≠ q := fun y p hy => by
    rw [hentry, Function.update_apply] at hy
    split_ifs at hy with hyx
    exact ⟨hy, fun heq => hyx (honly y (heq ▸ hy))⟩
  have hslot : ∀ y p, c.entry y = some p → y.1 ≠ q := fun y p hy heq => by
    rw [← Prod.mk.eta (p := y), heq, hempty] at hy
    cases hy
  refine ⟨hdirs ▸ ⟨h.start, hroot.symm⟩, hdirs ▸ hused ▸ Set.sdiff_subset_sdiff_left h.dirs,
    fun y p hy => ?_, fun y p hy => ?_,
    fun p hp hne => ?_, fun p hp hne => ?_, fun p hp => ?_, fun p hp hne => ?_⟩
  · rw [hdirs]
    have hy := (hback y p hy).1
    exact ⟨h.slot y p hy, hslot y p hy⟩
  · rw [hused]
    obtain ⟨hy, hpq⟩ := hback y p hy
    exact ⟨⟨(h.target y p hy).1, hpq⟩, (h.target y p hy).2⟩
  · rw [hused] at hp
    rw [names_update_none hx hentry hp.2]
    exact h.named p hp.1 hne
  · rw [hused] at hp
    rw [names_update_none hx hentry hp.2, hlinks p hp.1 hp.2]
    exact h.links p hp.1 hne
  · rw [hdirs] at hp
    obtain ⟨hp, hpq⟩ := hp
    -- no path goes through the object, which has no entries
    have hpath := h.reaches p hp
    induction hpath with
    | root => exact .root
    | @child p' q' k' hp' hk hq' ih =>
      refine .child (ih (h.slot _ _ hk) (hslot _ _ hk)) (hsome _ _ hk hpq) ?_
      rw [hdirs]
      exact ⟨hq', hpq⟩
  · rw [hdirs] at hp
    obtain ⟨k, hk⟩ := h.home p hp.1 hne
    exact ⟨k, hsome _ _ (hhome p hp.1 hp.2 ▸ hk) hp.2⟩

theorem step [Finite ι] [Finite κ] (hstep : c.Step c') : Sound root c' := by
  cases hstep with
  | keep hused hdirs hentry hlinks hhome => exact h.keep hused hdirs hentry hlinks hhome
  | make hx hfree hq hused hdirs hentry hcount hlinks hhome hup =>
    exact h.make hx hfree hq hused hdirs hentry hcount hlinks hhome hup
  | link hx hfree hq hfile hused hdirs hentry hcount hlinks hhome =>
    exact h.link hx hfree hq hfile hused hdirs hentry hcount hlinks hhome
  | unlink hx hlast hempty hused hdirs hentry hlinks hhome =>
    exact h.unlink hx hlast hempty hused hdirs hentry hlinks hhome

end Sound

end Catalog

end Ucas.Lib

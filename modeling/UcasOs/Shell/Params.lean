import UcasOs.Libs.Scanf

/-! `separate_params` of `test/test_shell.c`. `param_buffer` has `MAX_PARAMETER_NUM = 10` slots of
`MAX_PARAMETER_LENGTH = 20` bytes, one behind the other, and a field is stored from the start of its
slot on however long it is: the bytes behind the twentieth lie in the slots of the next fields,
which are written after it. A store outside `param_buffer` gives nothing. -/

namespace Ucas.Shell
open Ucas.Lib Ucas.Libs

abbrev Params := Buffer 200

variable {m : Nat} {param : Buffer m} {o i j k : Nat} {p q : Params} {l f g : List UInt8}
  {fs : List (List UInt8)}

/-- `param_buffer[j].param[k] = c` -/
def store (p : Params) (j k : Nat) (c : UInt8) : Option Params :=
  if 20 * j + k < 200 then some (p.set (20 * j + k) c) else none

/-- The loop of `separate_params`, for the string at `param + o`. -/
def separateFrom (param : Buffer m) (o i j k : Nat) (p : Params) : Option Params :=
  if i < inputBufferMaxLength then
    if o + i < m then
      if param.get (o + i) = 0 then store p j k 0
      else if param.get (o + i) = 32 then
        (store p j k 0).bind fun p => separateFrom param o (i + 1) (j + 1) 0 p
      else
        (store p j k (param.get (o + i))).bind fun p => separateFrom param o (i + 1) j (k + 1) p
    else none
  else some p
termination_by inputBufferMaxLength - i

def separateParams (param : Buffer m) (o : Nat) : Option Params :=
  separateFrom param o 0 0 0 Buffer.zero

/-! ### The fields one after the other -/

def putField (p : Params) (o : Nat) (f : List UInt8) : Option Params :=
  if o + f.length < 200 then some (p.putBytes o (f ++ [0])) else none

def putFields (j k : Nat) (p : Params) : List (List UInt8) → Option Params
  | [] => some p
  | f :: fs => (putField p (20 * j + k) f).bind fun p => putFields (j + 1) 0 p fs

def fields (l : List UInt8) : List (List UInt8) := l.splitOn 32

theorem fields_cons_space (l : List UInt8) : fields (32 :: l) = [] :: fields l :=
  (List.splitOnP_cons_eq_if_modifyHead (p := (· == 32)) 32 l).trans (if_pos rfl)

theorem fields_cons {c : UInt8} (hc : c ≠ 32) (hl : fields l = f :: fs) :
    fields (c :: l) = (c :: f) :: fs := by
  rw [fields, List.splitOn, List.splitOnP_cons_eq_if_modifyHead, if_neg (by simpa using hc)]
  exact congrArg (List.modifyHead (List.cons c)) hl

theorem exists_fields (l : List UInt8) : ∃ f fs, fields l = f :: fs :=
  List.exists_cons_of_ne_nil (List.splitOnP_ne_nil _ l)

theorem putField_nil (p : Params) (j k : Nat) : putField p (20 * j + k) [] = store p j k 0 := by
  rw [putField, store]
  by_cases h : 20 * j + k < 200
  · rw [if_pos h, if_pos (by simpa using h), List.nil_append, Buffer.putBytes_cons h,
      Buffer.putBytes_nil]
  · rw [if_neg h, if_neg (by simpa using h)]

theorem putField_cons (p : Params) (j k : Nat) (c : UInt8) (f : List UInt8) :
    putField p (20 * j + k) (c :: f) = (store p j k c).bind fun p => putField p (20 * j + (k + 1))
    f := by
  rw [putField, store, List.length_cons]
  by_cases h : 20 * j + k < 200
  · rw [if_pos h, Option.bind_some, putField, List.cons_append, Buffer.putBytes_cons h,
      show 20 * j + k + (f.length + 1) = 20 * j + (k + 1) + f.length by
        omega, Nat.add_assoc (20 * j) k]
  · rw [if_neg h, if_neg (by omega), Option.bind_none]

theorem separateFrom_eq (htext : param.HasText l (o + i)) (hnul : 0 ∉ l)
    (hlen : o + i + l.length < m)
    (hloop : i + l.length < inputBufferMaxLength) (j k : Nat) (p : Params) :
    separateFrom param o i j k p = putFields j k p (fields l) := by
  induction l generalizing i j k p with
  | nil =>
    have hlt : o + i < m := hlen
    rw [separateFrom, if_pos (show i < inputBufferMaxLength from hloop), if_pos hlt,
      if_pos ((Buffer.hasText_nil hlt).mp htext), ← putField_nil]
    exact (Option.bind_fun_some _).symm
  | cons c l ih =>
    rw [List.length_cons] at hlen hloop
    rw [List.mem_cons, not_or] at hnul
    rw [Buffer.hasText_cons (by omega)] at htext
    have hrest := ih (i := i + 1) htext.2 hnul.2 (by omega) (by omega)
    rw [separateFrom, if_pos (by omega), if_pos (by omega), htext.1, if_neg (Ne.symm hnul.1)]
    by_cases hc : c = 32
    · subst hc
      rw [if_pos rfl, fields_cons_space, putFields, putField_nil]
      simp only [hrest]
    · obtain ⟨f, fs, hfields⟩ := exists_fields l
      rw [if_neg hc, fields_cons hc hfields, putFields, putField_cons]
      simp only [hrest, hfields, putFields, Option.bind_assoc]

theorem separateParams_eq (htext : param.HasText l o) (hnul : 0 ∉ l) (hlen : o + l.length < m)
    (hloop : l.length < inputBufferMaxLength) :
    separateParams param o = putFields 0 0 Buffer.zero (fields l) :=
  separateFrom_eq htext hnul hlen (by omega) 0 0 Buffer.zero

/-! ### Where the fields lie -/

def InSlots (j : Nat) (fs : List (List UInt8)) : Prop :=
  ∀ t, ∀ h : t < fs.length, 20 * (j + t) + fs[t].length < 200

def Follows (f g : List UInt8) : Prop := f.length < 20 ∨ f.drop 20 = g

instance : DecidableRel Follows :=
  fun f g => inferInstanceAs (Decidable (f.length < 20 ∨ f.drop 20 = g))

def Holds (p : Params) (j : Nat) (fs : List (List UInt8)) : Prop :=
  ∀ t, ∀ h : t < fs.length, p.HasText fs[t] (20 * (j + t))

theorem forall_getElem_cons {R : List UInt8 → Nat → Prop} :
    (∀ t, ∀ h : t < (f :: fs).length, R (f :: fs)[t] (j + t)) ↔
      R f j ∧ ∀ t, ∀ h : t < fs.length, R fs[t] (j + 1 + t) := by
  constructor
  · intro h
    refine ⟨h 0 (Nat.succ_pos _), fun t ht => ?_⟩
    have := h (t + 1) (Nat.succ_lt_succ ht)
    rwa [List.getElem_cons_succ, Nat.add_comm t, ← Nat.add_assoc] at this
  · rintro ⟨hf, hfs⟩ t ht
    cases t with
    | zero => exact hf
    | succ t =>
      have := hfs t (Nat.lt_of_succ_lt_succ ht)
      rwa [Nat.add_assoc, Nat.add_comm 1] at this

theorem inSlots_cons : InSlots j (f :: fs) ↔ 20 * j + f.length < 200 ∧ InSlots (j + 1) fs :=
  forall_getElem_cons (R := fun f j => 20 * j + f.length < 200)

theorem holds_cons : Holds p j (f :: fs) ↔ p.HasText f (20 * j) ∧ Holds p (j + 1) fs :=
  forall_getElem_cons (R := fun f j => p.HasText f (20 * j))

theorem exists_putFields_iff : (∃ q, putFields j 0 p fs = some q) ↔ InSlots j fs := by
  induction fs generalizing j p with
  | nil => exact ⟨fun _ t ht => absurd ht (Nat.not_lt_zero t), fun _ => ⟨p, rfl⟩⟩
  | cons f fs ih =>
    rw [inSlots_cons, putFields, putField, Nat.add_zero]
    by_cases h : 20 * j + f.length < 200
    · rw [if_pos h, Option.bind_some, ih, and_iff_right h]
    · simp [h]

theorem get_putFields (h : putFields j 0 p fs = some q) {x : Nat} (hx : x < 20 * j) :
    q.get x = p.get x := by
  induction fs generalizing j p with
  | nil => rw [Option.some.inj h]
  | cons f fs ih =>
    obtain ⟨p', hp', hq⟩ := Option.bind_eq_some_iff.mp h
    rw [ih hq (by omega)]
    rw [putField] at hp'
    split_ifs at hp' with hlt
    rw [← Option.some.inj hp', Buffer.get_putBytes _ _ _ (by omega), if_neg (by omega)]

theorem hasText_drop {b : Buffer m} (hf : 20 ≤ f.length) :
    b.HasText f o ↔ (∀ k < 20, o + k < m → b.get (o + k) = f.getD k 0) ∧ b.HasText (f.drop 20)
    (o + 20) := by
  constructor
  · intro h
    refine ⟨fun k hk hlt => h k (by omega) hlt, fun k hk hlt => ?_⟩
    rw [List.length_drop] at hk
    rw [getD_drop, Nat.add_assoc]
    exact h (20 + k) (by omega) (by omega)
  · rintro ⟨hfirst, hrest⟩ k hk hlt
    by_cases h20 : k < 20
    · exact hfirst k h20 hlt
    · have := hrest (k - 20) (by rw [List.length_drop]; omega) (by omega)
      rwa [getD_drop, show o + 20 + (k - 20) = o + k by omega, show 20 + (k - 20) =
        k by omega] at this

theorem hasText_iff_follows (hp : p.HasText f (20 * j)) (hlt : 20 * j + f.length < 200)
    (hframe : ∀ x < 20 * (j + 1), q.get x = p.get x) (hg : q.HasText g (20 * (j + 1)))
    (hgt : 20 * (j + 1) + g.length < 200) (hf0 : 0 ∉ f) (hg0 : 0 ∉ g) :
    q.HasText f (20 * j) ↔ Follows f g := by
  by_cases hshort : f.length < 20
  · refine iff_of_true (fun k hk hin => ?_) (.inl hshort)
    rw [hframe _ (by omega)]
    exact hp k hk hin
  · have hfirst : ∀ k < 20, 20 * j + k < 200 → q.get (20 * j + k) = f.getD k 0 := by
      intro k hk hin
      rw [hframe _ (by omega)]
      exact hp k (by omega) hin
    rw [hasText_drop (by omega), and_iff_right hfirst, Follows, or_iff_right hshort]
    constructor
    · intro hdrop
      exact hdrop.unique hg (fun h0 => hf0 (List.mem_of_mem_drop h0)) hg0
        (by rw [List.length_drop]; omega) (by omega)
    · rintro rfl
      exact hg

theorem holds_iff (h : putFields j 0 p fs = some q) (hnul : ∀ f ∈ fs, 0 ∉ f) :
    Holds q j fs ↔ fs.IsChain Follows := by
  induction fs generalizing j p with
  | nil => exact iff_of_true (fun t ht => absurd ht (Nat.not_lt_zero t)) .nil
  | cons f fs ih =>
    have hslots := exists_putFields_iff.mp ⟨q, h⟩
    obtain ⟨p', hp', hq⟩ := Option.bind_eq_some_iff.mp h
    rw [inSlots_cons] at hslots
    rw [putField, Nat.add_zero, if_pos hslots.1] at hp'
    have htext : p'.HasText f (20 * j) := by
      rw [← Option.some.inj hp']
      exact Buffer.hasText_putBytes _ _ _
    have ih' := ih hq fun g hg => hnul g (List.mem_cons_of_mem _ hg)
    rw [holds_cons, ih']
    cases fs with
    | nil =>
      obtain rfl := Option.some.inj hq
      exact iff_of_true ⟨htext, .nil⟩ (.singleton f)
    | cons g fs =>
      rw [List.isChain_cons_cons]
      refine and_congr_left fun hchain => ?_
      have hg := (holds_cons.mp (ih'.mpr hchain)).1
      exact hasText_iff_follows htext hslots.1 (fun x hx => get_putFields hq hx) hg
        (inSlots_cons.mp hslots.2).1
        (hnul f List.mem_cons_self) (hnul g (List.mem_cons_of_mem _ List.mem_cons_self))

theorem notMem_intercalate {c d : UInt8} (hd : c ≠ d) (h : ∀ f ∈ fs, c ∉ f) :
    c ∉ [d].intercalate fs := by
  induction fs with
  | nil => exact List.not_mem_nil
  | cons f fs ih =>
    cases fs with
    | nil =>
      rw [List.intercalate_singleton]
      exact h f List.mem_cons_self
    | cons g fs =>
      rw [List.intercalate_cons_cons, List.mem_append, List.mem_append, List.mem_singleton, not_or,
        not_or]
      exact ⟨⟨h f List.mem_cons_self, hd⟩, ih fun f' hf' => h f' (List.mem_cons_of_mem _ hf')⟩

theorem separate_params_iff {m : Nat} (param : Buffer m) (o : Nat) (fs : List (List UInt8))
    (hplain : ∀ f ∈ fs, 0 ∉ f ∧ 32 ∉ f) (hnum : 1 ≤ fs.length ∧ fs.length ≤ 10)
    (htext : param.HasText ([32].intercalate fs) o) (hlen : o + ([32].intercalate fs).length < m)
    (hloop : ([32].intercalate fs).length < inputBufferMaxLength) :
    (∃ q, separateParams param o = some q ∧ ∀ j, ∀ h : j < fs.length, q.HasText fs[j] (20 * j)) ↔
      (∀ j, ∀ h : j < fs.length, 20 * j + fs[j].length < 200) ∧ fs.IsChain Follows := by
  have hfields : fields ([32].intercalate fs) = fs :=
    List.splitOn_intercalate 32 (fun f hf => (hplain f hf).2) (List.ne_nil_of_length_pos hnum.1)
  have hnul : 0 ∉ [32].intercalate fs := notMem_intercalate (by decide) fun f hf => (hplain f hf).1
  have hslots : InSlots 0 fs ↔ ∀ j, ∀ h : j < fs.length, 20 * j + fs[j].length < 200 := by
    simp only [InSlots, Nat.zero_add]
  rw [separateParams_eq htext hnul hlen hloop, hfields, ← hslots, ← exists_putFields_iff
    (p := Buffer.zero)]
  constructor
  · rintro ⟨q, hq, hholds⟩
    refine ⟨⟨q, hq⟩, (holds_iff hq fun f hf => (hplain f hf).1).mp fun t ht => ?_⟩
    rw [Nat.zero_add]
    exact hholds t ht
  · rintro ⟨⟨q, hq⟩, hchain⟩
    refine ⟨q, hq, fun t ht => ?_⟩
    have := (holds_iff hq fun f hf => (hplain f hf).1).mpr hchain t ht
    rwa [Nat.zero_add] at this

theorem separate_params_two_fields :
    ∃ q, separateParams ((Buffer.zero : Buffer 4).putBytes 0 [97, 32, 98, 0]) 0 = some q ∧
    ∀ j, ∀ h : j < [[97], [98]].length, q.HasText ([[97], [98]].get ⟨j, h⟩) (20 * j) :=
  (separate_params_iff _ 0 [[97], [98]] (by decide) (by decide) (Buffer.hasText_putBytes _ [97, 32,
    98] 0) (by decide)
    (by decide)).mpr ⟨by decide, by decide⟩

def longField : List UInt8 := List.replicate 20 97

theorem separate_params_long_field :
    ¬ ∃ q, separateParams ((Buffer.zero : Buffer 32).putBytes 0 (longField ++ [32, 98, 0])) 0 = some
    q ∧
      q.HasText longField 0 := by
  rintro ⟨q, hq, htext⟩
  have hfields : fields (longField ++ [32, 98]) = [longField, [98]] := by decide
  have htext' : ((Buffer.zero : Buffer 32).putBytes 0 (longField ++ [32, 98, 0])).HasText
      (longField ++ [32, 98]) 0 := by
    rw [show longField ++ [32, 98, 0] = (longField ++ [32, 98]) ++ [0] from rfl]
    exact Buffer.hasText_putBytes _ _ _
  rw [separateParams_eq htext' (by decide) (by decide) (by decide), hfields] at hq
  obtain ⟨p', -, hp'⟩ := Option.bind_eq_some_iff.mp hq
  obtain ⟨q', hput, hlast⟩ := Option.bind_eq_some_iff.mp hp'
  obtain rfl : q' = q := Option.some.inj hlast
  have hend : q'.get 20 = 0 := htext 20 (by decide) (by decide)
  rw [putField, if_pos (by decide)] at hput
  rw [← Option.some.inj hput, Buffer.get_putBytes _ _ _ (by decide), if_pos (by decide)] at hend
  exact absurd hend (by decide)

end Ucas.Shell

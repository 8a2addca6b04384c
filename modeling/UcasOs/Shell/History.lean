import UcasOs.Shell.Model

/-! What the shell dispatches for a line. The bytes behind the line are zero, whatever was typed
before, so every branch sees the line, its return key and zeros up to the end of the buffer; the
history only decides how many. -/

namespace Ucas.Shell
open Ucas.Lib Ucas.Libs

variable {m : Nat} {b : Buffer m} {o : Nat} {l t : List UInt8}

def lineBuffer (m : Nat) (l : List UInt8) : Buffer m := Buffer.zero.putBytes 0 (l ++ [13])

theorem get_lineBuffer {k : Nat} (hk : k < m) : (lineBuffer m l).get k = (l ++ [13]).getD k 0 := by
  rw [lineBuffer, Buffer.get_putBytes _ _ _ hk, Nat.zero_add, Nat.sub_zero, Buffer.get_zero]
  split_ifs with h
  · rfl
  · rw [List.getD_eq_default _ _ (by omega)]

theorem get_lineBuffer_of_lt {k : Nat} (hk : k < l.length) (hm : l.length < m) :
    (lineBuffer m l).get k = l[k] := by
  rw [get_lineBuffer (by omega), List.getD_append _ _ _ _ hk, List.getD_eq_getElem _ _ hk]

theorem get_lineBuffer_length (hm : l.length < m) : (lineBuffer m l).get l.length = 13 := by
  rw [get_lineBuffer hm, List.getD_append_right _ _ _ _ le_rfl, Nat.sub_self]
  rfl

theorem get_lineBuffer_behind {k : Nat} (hk : l.length < k) : (lineBuffer m l).get k = 0 := by
  by_cases hm : k < m
  · rw [get_lineBuffer hm, List.getD_eq_default _ _
      (by rw [List.length_append, List.length_singleton]; omega)]
  · exact Buffer.get_of_le (by omega)

section branches
variable (hm : l.length < m)
include hm

theorem startsWith_lineBuffer {name : List UInt8} (hname : 13 ∉ name) (ho : o ≤ l.length) :
    startsWith (lineBuffer m l) name o = some (name.isPrefixOf (l.drop o)) := by
  induction name generalizing o with
  | nil => rfl
  | cons c name ih =>
    rw [List.mem_cons, not_or] at hname
    rw [startsWith, if_pos (by omega)]
    obtain hlt | rfl := Nat.lt_or_eq_of_le ho
    · rw [get_lineBuffer_of_lt hlt hm, List.drop_eq_getElem_cons hlt, List.isPrefixOf_cons_cons]
      by_cases hc : l[o] = c
      · rw [if_pos hc, ih hname.2 hlt, hc, beq_self_eq_true, Bool.true_and]
      · rw [if_neg hc, beq_false_of_ne (Ne.symm hc), Bool.false_and]
    · rw [get_lineBuffer_length hm, if_neg hname.1, List.drop_length]
      rfl

def numberOf (l : List UInt8) : UInt32 :=
  (leadingDigits decimalValue l).foldl (fun n d => n * 10 + d) 0

theorem atoi_lineBuffer (ho : o ≤ l.length) :
    atoi (lineBuffer m l) o = some (numberOf (l.drop o)) := by
  have hlen : o + (l.drop o).length = l.length := by rw [List.length_drop]; omega
  refine readFrom_eq (fun k hk => ?_) ?_ (by omega) 0
  · rw [List.length_drop] at hk
    rw [get_lineBuffer_of_lt (by omega) hm, List.getD_eq_getElem _ _
      (by rw [List.length_drop]; omega),
      List.getElem_drop]
  · rw [hlen, get_lineBuffer_length hm]
    rfl

theorem handleFrom_lineBuffer (hl : 13 ∉ l) (ho : o ≤ l.length) (rounds : Nat) :
    handleFrom (lineBuffer m l) o rounds =
      some (if l.length - o < rounds then (lineBuffer m l).set l.length 0 else lineBuffer m l) := by
  induction rounds generalizing o with
  | zero => rw [handleFrom, if_neg (Nat.not_lt_zero _)]
  | succ rounds ih =>
    rw [handleFrom, if_pos (by omega)]
    obtain hlt | rfl := Nat.lt_or_eq_of_le ho
    · have hne : l[o] ≠ 13 := fun h => hl (h ▸ List.getElem_mem hlt)
      rw [get_lineBuffer_of_lt hlt hm, if_neg hne, ih hlt]
      refine congrArg some (if_congr (by omega) rfl rfl)
    · rw [get_lineBuffer_length hm, if_pos rfl, if_pos (by omega)]

end branches

theorem cstring_of_hasText (h : b.HasText t o) (ht : 0 ∉ t) (hlen : o + t.length < m) :
    cstring b o = some t := by
  induction t generalizing o with
  | nil =>
    have ho : o < m := hlen
    rw [cstring, if_pos ho, if_pos ((Buffer.hasText_nil ho).mp h)]
  | cons c t ih =>
    rw [List.length_cons] at hlen
    have ho : o < m := by omega
    rw [Buffer.hasText_cons ho] at h
    rw [List.mem_cons, not_or] at ht
    rw [cstring, if_pos ho, h.1, if_neg (Ne.symm ht.1), ih h.2 ht.2 (by omega)]
    rfl

theorem cstring_eq_none (h : ∀ k, o ≤ k → k < m → b.get k ≠ 0) : cstring b o = none := by
  fun_induction cstring b o with
  | case1 o ho h0 => exact absurd h0 (h o le_rfl ho)
  | case2 o ho h0 ih => rw [ih fun k hk hm => h k (by omega) hm, Option.map_none]
  | case3 o ho => rfl

theorem exists_cstring (h : ∃ k, o ≤ k ∧ k < m ∧ b.get k = 0) : ∃ t, cstring b o = some t := by
  obtain ⟨k, hle, hlt, hzero⟩ := h
  fun_induction cstring b o with
  | case1 o ho h0 => exact ⟨[], rfl⟩
  | case2 o ho h0 ih =>
    have hne : o ≠ k := by
      rintro rfl
      exact h0 hzero
    obtain ⟨t, ht⟩ := ih (by omega)
    exact ⟨b.get o :: t, by rw [ht]; rfl⟩
  | case3 o ho => omega

theorem separateFrom_eq_none {i j k : Nat} {p : Params} (h : ∀ x, o + i ≤ x → x < m → b.get x ≠ 0)
    (hi : o + i ≤ m) (hm : m < o + inputBufferMaxLength) : separateFrom b o i j k p = none := by
  fun_induction separateFrom b o i j k p with
  | case1 i j k p h1 h2 h0 => exact absurd h0 (h _ le_rfl h2)
  | case2 i j k p h1 h2 h0 hspace ih =>
    rw [Option.bind_eq_none_iff]
    intro p' _
    exact ih p' (fun x hx => h x (by omega)) (by omega)
  | case3 i j k p h1 h2 h0 hspace ih =>
    rw [Option.bind_eq_none_iff]
    intro p' _
    exact ih p' (fun x hx => h x (by omega)) (by omega)
  | case4 => rfl
  | case5 i j k p h1 => omega

def argument (a : List UInt8) : List UInt8 := if a.length < maxPathLength then a else a ++ [13]

def Ends (m : Nat) (l a : List UInt8) : Prop := maxPathLength ≤ a.length → l.length + 1 < m

structure Handled (l : List UInt8) (o : Nat) (b : Buffer m) : Prop where
  behind : ∀ k, l.length < k → b.get k = 0
  text : Ends m l (l.drop o) → b.HasText (argument (l.drop o)) o ∧
    o + (argument (l.drop o)).length < m
  endless : ¬ Ends m l (l.drop o) → ∀ k, o ≤ k → k < m → b.get k ≠ 0

theorem hasText_lineBuffer (ho : o ≤ l.length) : (lineBuffer m l).HasText (l.drop o ++ [13]) o := by
  intro k hk hlt
  rw [get_lineBuffer hlt, ← getD_drop, List.drop_append_of_le_length ho]

theorem exists_handled (hm : l.length < m) (h0 : 0 ∉ l) (h13 : 13 ∉ l) (ho : o ≤ l.length) :
    ∃ b, handleInput (lineBuffer m l) o = some b ∧ Handled l o b := by
  refine ⟨_, handleFrom_lineBuffer hm h13 ho maxPathLength, ?_⟩
  have hdrop : (l.drop o).length = l.length - o := List.length_drop
  by_cases hshort : l.length - o < maxPathLength
  · have hends : Ends m l (l.drop o) := fun hlong => by omega
    rw [if_pos hshort]
    refine ⟨fun k hk => ?_, fun _ => ?_, fun h => absurd hends h⟩
    · rw [Buffer.get_set, if_neg (by omega), get_lineBuffer_behind hk]
    · rw [argument, if_pos (by omega)]
      refine ⟨fun k hk hlt => ?_, by omega⟩
      rw [Buffer.get_set]
      split_ifs with hlast
      · rw [List.getD_eq_default _ _ (by omega)]
      · rw [hasText_lineBuffer ho k (by rw [List.length_append]; omega) hlt, List.getD_append _ _ _
          _ (by omega)]
  · rw [if_neg hshort]
    refine ⟨fun k hk => get_lineBuffer_behind hk, fun hends => ?_, fun hends k hk hlt h => ?_⟩
    · have := hends (by omega)
      rw [argument, if_neg (by omega)]
      refine ⟨hasText_lineBuffer ho, ?_⟩
      rw [List.length_append, List.length_singleton]
      omega
    · have hfull : ¬ l.length + 1 < m := fun hlt' => hends fun _ => hlt'
      obtain hlt' | rfl := Nat.lt_or_eq_of_le (show k ≤ l.length by omega)
      · rw [get_lineBuffer_of_lt hlt' hm] at h
        exact h0 (h ▸ List.getElem_mem hlt')
      · rw [get_lineBuffer_length hm] at h
        exact absurd h (by decide)

/-! ### The call for a line -/

namespace Entry
variable (e : Entry) (l : List UInt8)

def rest : List UInt8 := l.drop e.name.length

def takes : Bool := e.name.isPrefixOf l && (e.form != .number || isTask (numberOf (e.rest l)))

def call : Call :=
  match e.form with
  | .plain => .plain e.command
  | .number => .number e.command (numberOf (e.rest l))
  | .path => .path e.command (argument (e.rest l))
  | .params => (putFields 0 0 Buffer.zero (fields (argument (e.rest l)))).elim .nothing fun p =>
      .params e.command ((cstring p 0).getD []) ((cstring p 20).getD [])

/-- The fields of the argument are stored inside `param_buffer`. -/
def Fits : Prop := e.form = .params → InSlots 0 (fields (argument (e.rest l)))

def Long : Prop := (e.form = .path ∨ e.form = .params) ∧ maxPathLength ≤ (e.rest l).length

end Entry

theorem get_last_putFields {j : Nat} {p q : Params} {fs : List (List UInt8)}
    (h : putFields j 0 p fs = some q)
    (hp : p.get 199 = 0) : q.get 199 = 0 := by
  induction fs generalizing j p with
  | nil => rwa [← Option.some.inj h]
  | cons f fs ih =>
    obtain ⟨p', hp', hq⟩ := Option.bind_eq_some_iff.mp h
    refine ih hq ?_
    rw [putField] at hp'
    split_ifs at hp' with hlt
    rw [← Option.some.inj hp', Buffer.get_putBytes _ _ _ (by decide)]
    split_ifs with hin
    · rw [List.length_append, List.length_singleton] at hin
      rw [List.getD_append_right _ _ _ _ (by omega), show 199 - (20 * j + 0) - f.length =
        0 by omega]
      rfl
    · exact hp

def IsLine (l : List UInt8) : Prop := 0 ∉ l ∧ 13 ∉ l

instance (l : List UInt8) : Decidable (IsLine l) := inferInstanceAs (Decidable (0 ∉ l ∧ 13 ∉ l))

theorem zero_notMem_argument (hl : IsLine l) (o : Nat) : 0 ∉ argument (l.drop o) := by
  have hdrop : 0 ∉ l.drop o := fun h => hl.1 (List.mem_of_mem_drop h)
  rw [argument]
  split_ifs with h
  · exact hdrop
  · rw [List.mem_append, not_or]
    exact ⟨hdrop, by decide⟩

namespace Entry
variable {e : Entry}

structure Good (e : Entry) (m : Nat) (l : List UInt8) : Prop where
  fits : e.Fits l
  ends : e.Long l → l.length + 1 < m

theorem Good.argument (h : e.Good m l) (hform : e.form = .path ∨ e.form = .params) :
    Ends m l (e.rest l) :=
  fun hlong => h.ends ⟨hform, hlong⟩

theorem not_good (h : ¬ e.Good m l) :
    (¬ e.Fits l ∨ ¬ Ends m l (e.rest l)) ∧ (e.form = .path ∨ e.form = .params) := by
  by_cases hfits : e.Fits l
  · have hends : ¬ (e.Long l → l.length + 1 < m) := fun hends => h ⟨hfits, hends⟩
    rw [Classical.not_imp] at hends
    exact ⟨.inr fun h' => hends.2 (h' hends.1.2), hends.1.1⟩
  · exact ⟨.inl hfits, .inr (Classical.not_imp.mp hfits).1⟩

section act
variable (hm : l.length < m) (hl : IsLine l) (hle : e.name.length ≤ l.length)
  (hsize : m ≤ inputBufferMaxLength)
include hm hl hle hsize

theorem act_of_good (hgood : e.Good m l) (hnum : e.form = .number → isTask (numberOf (e.rest l)) =
    true) :
    ∃ b : Buffer m, e.act (lineBuffer m l) = some (some (b, e.call l)) ∧ ∀ k, l.length < k →
    b.get k = 0 := by
  obtain ⟨b, hb, hhandled⟩ := exists_handled hm hl.1 hl.2 hle
  cases hform : e.form with
  | plain =>
    refine ⟨lineBuffer m l, ?_, fun k hk => get_lineBuffer_behind hk⟩
    simp only [act, call, hform]
  | number =>
    refine ⟨lineBuffer m l, ?_, fun k hk => get_lineBuffer_behind hk⟩
    have hk := hnum hform
    rw [rest] at hk
    simp only [act, call, rest, hform, atoi_lineBuffer hm hle, Option.bind_eq_bind,
      Option.bind_some, if_pos hk]
    rfl
  | path =>
    obtain ⟨htext, hlen⟩ := hhandled.text (hgood.argument (.inl hform))
    refine ⟨b, ?_, hhandled.behind⟩
    simp only [act, call, rest, hform, hb, cstring_of_hasText htext (zero_notMem_argument hl _)
      hlen,
      Option.bind_eq_bind, Option.bind_some]
    rfl
  | params =>
    obtain ⟨htext, hlen⟩ := hhandled.text (hgood.argument (.inr hform))
    obtain ⟨p, hp⟩ := exists_putFields_iff (p := Buffer.zero).mpr (hgood.fits hform)
    have hsep : separateParams b e.name.length = some p := by
      rw [separateParams_eq htext (zero_notMem_argument hl _) hlen (by omega)]
      exact hp
    have hlast := get_last_putFields hp (Buffer.get_zero 199)
    obtain ⟨first, hfirst⟩ := exists_cstring (o := 0) ⟨199, by decide, by decide, hlast⟩
    obtain ⟨second, hsecond⟩ := exists_cstring (o := 20) ⟨199, by decide, by decide, hlast⟩
    refine ⟨b, ?_, hhandled.behind⟩
    simp only [act, call, hform, hb, hsep, hp, hfirst, hsecond, Option.bind_eq_bind,
      Option.bind_some,
      Option.elim_some, Option.getD_some]
    rfl

theorem act_of_not_good (hne : e.name ≠ []) (h : ¬ e.Good m l) : e.act (lineBuffer m l) = none := by
  obtain ⟨b, hb, hhandled⟩ := exists_handled hm hl.1 hl.2 hle
  obtain ⟨hbad, hform⟩ := not_good h
  have hpos : 0 < e.name.length := List.length_pos_iff.mpr hne
  obtain hform | hform := hform
  · have hends := hbad.resolve_left fun hfits => hfits fun h => by simp [hform] at h
    simp only [act, hform, hb, cstring_eq_none (hhandled.endless hends), Option.bind_eq_bind,
      Option.bind_some,
      Option.bind_none]
  · have hsep : separateParams b e.name.length = none := by
      by_cases hends : Ends m l (e.rest l)
      · obtain ⟨htext, hlen⟩ := hhandled.text hends
        rw [separateParams_eq htext (zero_notMem_argument hl _) hlen (by omega),
          Option.eq_none_iff_forall_ne_some]
        intro p hp
        exact hbad.resolve_right (not_not_intro hends) fun _ => exists_putFields_iff.mp ⟨p, hp⟩
      · exact separateFrom_eq_none (hhandled.endless hends) (by omega) (by omega)
    simp only [act, hform, hb, hsep, Option.bind_eq_bind, Option.bind_some, Option.bind_none]

end act

theorem branch_eq (hm : l.length < m) (hname : 13 ∉ e.name) :
    e.branch (lineBuffer m l) = if e.name.isPrefixOf l then e.act (lineBuffer m l) else
    some none := by
  rw [branch, startsWith_lineBuffer hm hname (Nat.zero_le _), List.drop_zero]
  rfl

theorem branch_of_not_takes (hm : l.length < m) (hname : 13 ∉ e.name) (h : e.takes l = false) :
    e.branch (lineBuffer m l) = some none := by
  rw [branch_eq hm hname]
  split_ifs with hpre
  · have hle : e.name.length ≤ l.length := (List.isPrefixOf_iff_prefix.mp hpre).length_le
    rw [takes, hpre, Bool.true_and, Bool.or_eq_false_iff, bne_eq_false_iff_eq, rest] at h
    simp only [act, h.1, atoi_lineBuffer hm hle, Option.bind_eq_bind, Option.bind_some, h.2]
    rfl
  · rfl

end Entry

def entryOf (l : List UInt8) : Option Entry := commands.find? (·.takes l)

def callOf (l : List UInt8) : Call := (entryOf l).elim .nothing fun e => e.call l

def Dispatched (m : Nat) (l : List UInt8) : Prop := ∀ e, entryOf l = some e → e.Good m l

theorem commands_names : ∀ e ∈ commands, 13 ∉ e.name ∧ e.name ≠ [] := by decide

theorem of_takes {e : Entry} (h : e.takes l = true) :
    e.name.isPrefixOf l = true ∧ (e.form = .number → isTask (numberOf (e.rest l)) = true) := by
  rw [Entry.takes, Bool.and_eq_true, Bool.or_eq_true, bne_iff_ne] at h
  exact ⟨h.1, fun hform => h.2.resolve_left (not_not_intro hform)⟩

section dispatch
variable {es : List Entry} (hnames : ∀ e ∈ es, 13 ∉ e.name ∧ e.name ≠ []) (hm : l.length < m)
  (hl : IsLine l)
  (hsize : m ≤ inputBufferMaxLength)
include hnames hm hl hsize

theorem dispatch_of_good (hgood : ∀ e, es.find? (·.takes l) = some e → e.Good m l) :
    ∃ b, dispatch (lineBuffer m l) es = some (b, (es.find? (·.takes l)).elim .nothing fun e =>
    e.call l) ∧
      ∀ k, l.length < k → b.get k = 0 := by
  induction es with
  | nil => exact ⟨_, rfl, fun k hk => get_lineBuffer_behind hk⟩
  | cons e es ih =>
    obtain ⟨hname, hne⟩ := hnames e List.mem_cons_self
    cases htakes : e.takes l with
    | true =>
      rw [List.find?_cons_of_pos (p := fun e : Entry => e.takes l) htakes] at hgood ⊢
      obtain ⟨hpre, hnum⟩ := of_takes htakes
      obtain ⟨b, hb, hbehind⟩ := Entry.act_of_good hm hl (List.isPrefixOf_iff_prefix.mp
        hpre).length_le hsize
        (hgood e rfl) hnum
      refine ⟨b, ?_, hbehind⟩
      rw [dispatch, Entry.branch_eq hm hname, if_pos hpre, hb]
      rfl
    | false =>
      rw [List.find?_cons_of_neg (by rw [htakes]; decide)] at hgood ⊢
      rw [dispatch, Entry.branch_of_not_takes hm hname htakes]
      exact ih (fun e' he' => hnames e' (List.mem_cons_of_mem _ he')) hgood

theorem dispatch_of_not_good {e : Entry} (he : es.find? (·.takes l) = some e)
    (hbad : ¬ e.Good m l) :
    dispatch (lineBuffer m l) es = none := by
  induction es with
  | nil => cases he
  | cons e' es ih =>
    obtain ⟨hname, hne⟩ := hnames e' List.mem_cons_self
    cases htakes : e'.takes l with
    | true =>
      rw [List.find?_cons_of_pos (p := fun e : Entry => e.takes l) htakes] at he
      obtain rfl := Option.some.inj he
      obtain ⟨hpre, -⟩ := of_takes htakes
      rw [dispatch, Entry.branch_eq hm hname, if_pos hpre,
        Entry.act_of_not_good hm hl (List.isPrefixOf_iff_prefix.mp hpre).length_le hsize hne hbad]
      rfl
    | false =>
      rw [List.find?_cons_of_neg (by rw [htakes]; decide)] at he
      rw [dispatch, Entry.branch_of_not_takes hm hname htakes]
      exact ih (fun e' he' => hnames e' (List.mem_cons_of_mem _ he')) he

end dispatch

/-! ### Line after line -/

namespace InputBuffer
variable {s s' : InputBuffer} {n : Nat}

structure Ready (s : InputBuffer) (n : Nat) : Prop where
  i : s.i = n
  pointer : s.pointer = n
  behind : ∀ k, n ≤ k → s.buffer.get k = 0

theorem ready_init : init.Ready 0 := ⟨rfl, rfl, fun k _ => Buffer.get_zero k⟩

theorem keys_cons_of_ne {ch : UInt8} (hch : ch ≠ 13) (t : List UInt8) :
    s.keys (ch :: t) = (s.put ch).bind fun s => s.keys t := by
  rw [keys, key]
  cases hput : s.put ch with
  | none => rfl
  | some s' =>
    rw [Option.bind_some, Option.bind_some, if_neg hch, Option.bind_some]
    exact Option.map_id'

theorem keys_append (hi : s.i + l.length ≤ inputBufferMaxLength) (hl : 13 ∉ l) (t : List UInt8) :
    s.keys (l ++ t) = keys { s with buffer := s.buffer.putBytes s.i l, i := s.i + l.length } t := by
  induction l generalizing s with
  | nil =>
    rw [Buffer.putBytes_nil]
    rfl
  | cons c l ih =>
    rw [List.length_cons] at hi
    rw [List.mem_cons, not_or] at hl
    have hlt : s.i < inputBufferMaxLength := by omega
    rw [List.cons_append, keys_cons_of_ne (Ne.symm hl.1), put, if_pos hlt, Option.bind_some,
      ih (by dsimp only; omega) hl.2,
      Buffer.putBytes_cons hlt, List.length_cons, Nat.add_assoc, Nat.add_comm 1]

theorem i_of_put {ch : UInt8} (h : s.put ch = some s') :
    s.i < inputBufferMaxLength ∧ s'.i = s.i + 1 := by
  rw [put] at h
  split_ifs at h with hlt
  rw [← Option.some.inj h]
  exact ⟨hlt, rfl⟩

theorem keys_eq_none (hl : 13 ∉ l) (hi : inputBufferMaxLength ≤ s.i + l.length) (t : List UInt8) :
    s.keys (l ++ 13 :: t) = none := by
  induction l generalizing s with
  | nil =>
    rw [List.nil_append, keys, key, put, if_neg (by simpa using hi)]
    rfl
  | cons c l ih =>
    rw [List.mem_cons, not_or] at hl
    rw [List.length_cons] at hi
    rw [List.cons_append, keys_cons_of_ne (Ne.symm hl.1)]
    cases hput : s.put c with
    | none => rfl
    | some s' =>
      obtain ⟨-, hi'⟩ := i_of_put hput
      exact ih hl.2 (by omega)

theorem slice_line (h : s.Ready n) :
    (s.buffer.putBytes n (l ++ [13])).slice n (inputBufferMaxLength - n) = lineBuffer
    (inputBufferMaxLength - n) l := by
  refine Buffer.ext fun k hk => ?_
  rw [Buffer.get_slice _ _ hk, get_lineBuffer hk, Buffer.get_putBytes _ _ _ (by omega),
    Nat.add_sub_cancel_left]
  split_ifs with hin
  · rfl
  · rw [h.behind _ (by omega), List.getD_eq_default _ _ (by omega)]

theorem keys_return (hroom : n + l.length < inputBufferMaxLength) (h : s.Ready n) (hl : 13 ∉ l)
    (t : List UInt8) :
    s.keys (l ++ 13 :: t) =
      (dispatch (lineBuffer (inputBufferMaxLength - n) l) commands).bind fun (b, call) =>
        (keys ⟨(s.buffer.putBytes n (l ++ [13])).blit n b, n + l.length + 1, n + l.length + 1⟩
        t).map
          fun (s, calls) => (s, call :: calls) := by
  rw [keys_append (by rw [h.i]; omega) hl, keys, key, put, h.i, if_pos hroom, Option.bind_some,
    if_pos rfl, enter]
  dsimp only
  rw [h.pointer, Buffer.set_putBytes hroom, slice_line h]
  cases dispatch (lineBuffer (inputBufferMaxLength - n) l) commands with
  | none => rfl
  | some r => rfl

theorem ready_next (s : InputBuffer) {b : Buffer (inputBufferMaxLength - n)}
    (hb : ∀ k, l.length < k → b.get k = 0) :
    Ready ⟨(s.buffer.putBytes n (l ++ [13])).blit n b, n + l.length + 1, n + l.length + 1⟩
    (n + l.length + 1) := by
  refine ⟨rfl, rfl, fun k hk => ?_⟩
  by_cases hlt : k < inputBufferMaxLength
  · rw [Buffer.get_blit _ _ _ hlt, if_pos (by omega), hb _ (by omega)]
  · exact Buffer.get_of_le (by omega)

end InputBuffer

abbrev Line := { l : List UInt8 // IsLine l }

def typed (h : List Line) : List UInt8 := h.flatMap fun l => l.1 ++ [13]

theorem typed_cons (l : Line) (h : List Line) : typed (l :: h) = l.1 ++ 13 :: typed h := by
  rw [typed, List.flatMap_cons, List.append_assoc]
  rfl

def Accepted : Nat → List Line → Prop
  | _, [] => True
  | n, l :: h => n + l.1.length < inputBufferMaxLength ∧ Dispatched (inputBufferMaxLength - n) l.1 ∧
      Accepted (n + l.1.length + 1) h

theorem keys_of_accepted {s : InputBuffer} {n : Nat} {h : List Line} (hs : s.Ready n)
    (hacc : Accepted n h) :
    ∃ s', s.keys (typed h) = some (s', h.map fun l => callOf l.1) := by
  induction h generalizing s n with
  | nil => exact ⟨s, rfl⟩
  | cons l h ih =>
    obtain ⟨hroom, hgood, hrest⟩ := hacc
    obtain ⟨b, hb, hbehind⟩ := dispatch_of_good commands_names (m := inputBufferMaxLength - n)
      (by omega) l.2 (by omega)
      hgood
    obtain ⟨s', hs'⟩ := ih (InputBuffer.ready_next s hbehind) hrest
    refine ⟨s', ?_⟩
    rw [typed_cons, InputBuffer.keys_return hroom hs l.2.2, hb, Option.bind_some]
    dsimp only
    rw [hs']
    rfl

theorem keys_of_not_accepted {s : InputBuffer} {n : Nat} {h : List Line} (hs : s.Ready n)
    (hacc : ¬ Accepted n h) :
    s.keys (typed h) = none := by
  induction h generalizing s n with
  | nil => exact absurd trivial hacc
  | cons l h ih =>
    rw [typed_cons]
    by_cases hroom : n + l.1.length < inputBufferMaxLength
    · rw [InputBuffer.keys_return hroom hs l.2.2]
      by_cases hgood : Dispatched (inputBufferMaxLength - n) l.1
      · obtain ⟨b, hb, hbehind⟩ := dispatch_of_good commands_names (m := inputBufferMaxLength - n)
          (by omega) l.2
          (by omega) hgood
        rw [hb, Option.bind_some]
        dsimp only
        rw [ih (InputBuffer.ready_next s hbehind) fun hrest => hacc ⟨hroom, hgood, hrest⟩]
        rfl
      · simp only [Dispatched, not_forall] at hgood
        obtain ⟨e, he, hbad⟩ := hgood
        rw [dispatch_of_not_good commands_names (by omega) l.2 (by omega) he hbad]
        rfl
    · exact InputBuffer.keys_eq_none l.2.2 (by rw [hs.i]; omega) _

/-- The call dispatched for a line that is typed after others. -/
def lastCall (h : List Line) (l : Line) : Option Call :=
  (InputBuffer.init.keys (typed (h ++ [l]))).bind fun (_, calls) => calls.getLast?

theorem lastCall_of_accepted {h : List Line} {l : Line} (hacc : Accepted 0 (h ++ [l])) :
    lastCall h l = some (callOf l.1) := by
  obtain ⟨s', hs'⟩ := keys_of_accepted InputBuffer.ready_init hacc
  rw [lastCall, hs', Option.bind_some, List.map_append]
  exact List.getLast?_concat

theorem lastCall_of_not_accepted {h : List Line} {l : Line} (hacc : ¬ Accepted 0 (h ++ [l])) :
    lastCall h l = none := by
  rw [lastCall, keys_of_not_accepted InputBuffer.ready_init hacc]
  rfl

def FieldsFit (l : List UInt8) : Prop := ∀ e, entryOf l = some e → e.Fits l

def LongArgument (l : List UInt8) : Prop := ∃ e, entryOf l = some e ∧ e.Long l

/-- All lines are stored in the buffer, with a zero behind a long argument, and no field leaves
`param_buffer`. -/
structure Keeps (h : List Line) (l : Line) : Prop where
  room : (typed (h ++ [l])).length ≤ inputBufferMaxLength
  fields : ∀ l' ∈ h ++ [l], FieldsFit l'.1
  ends : LongArgument l.1 → (typed (h ++ [l])).length < inputBufferMaxLength

theorem dispatched_iff {m : Nat} {l : List UInt8} :
    Dispatched m l ↔ FieldsFit l ∧ (LongArgument l → l.length + 1 < m) := by
  constructor
  · intro h
    refine ⟨fun e he => (h e he).fits, ?_⟩
    rintro ⟨e, he, hlong⟩
    exact (h e he).ends hlong
  · rintro ⟨hfits, hends⟩ e he
    exact ⟨hfits e he, fun hlong => hends ⟨e, he, hlong⟩⟩

theorem length_typed_cons (l : Line) (h : List Line) :
    (typed (l :: h)).length = l.1.length + 1 + (typed h).length := by
  rw [typed_cons, List.length_append, List.length_cons]
  omega

theorem length_typed_pos (h : List Line) (l : Line) : 1 ≤ (typed (h ++ [l])).length := by
  cases h with
  | nil =>
    rw [List.nil_append, length_typed_cons]
    omega
  | cons l' h =>
    rw [List.cons_append, length_typed_cons]
    omega

theorem accepted_iff {n : Nat} {h : List Line} {l : Line} :
    Accepted n (h ++ [l]) ↔ n + (typed (h ++ [l])).length ≤ inputBufferMaxLength ∧
    (∀ l' ∈ h ++ [l], FieldsFit l'.1) ∧
      (LongArgument l.1 → n + (typed (h ++ [l])).length < inputBufferMaxLength) := by
  induction h generalizing n with
  | nil =>
    have hlen : (typed [l]).length = l.1.length + 1 := length_typed_cons l []
    simp only [List.nil_append, Accepted, and_true, List.mem_singleton, forall_eq, dispatched_iff,
      hlen]
    refine ⟨fun ⟨hroom, hfits, hends⟩ => ⟨by omega, hfits, fun hlong => ?_⟩,
      fun ⟨hroom, hfits, hends⟩ => ⟨by omega, hfits, fun hlong => ?_⟩⟩
    · have := hends hlong
      omega
    · have := hends hlong
      omega
  | cons l' h ih =>
    have hpos := length_typed_pos h l
    have hlen := length_typed_cons l' (h ++ [l])
    rw [List.cons_append, Accepted, ih, dispatched_iff, hlen, List.forall_mem_cons]
    refine ⟨fun ⟨hroom, ⟨hfits, _⟩, hrest, hall, hends⟩ => ⟨by omega, ⟨hfits, hall⟩, fun hlong =>
      ?_⟩,
      fun ⟨hroom, ⟨hfits, hall⟩, hends⟩ =>
        ⟨by omega, ⟨hfits, fun _ => by omega⟩, by omega, hall, fun hlong => ?_⟩⟩
    · have := hends hlong
      omega
    · have := hends hlong
      omega

theorem accepted_iff_keeps {h : List Line} {l : Line} : Accepted 0 (h ++ [l]) ↔ Keeps h l := by
  rw [accepted_iff, Nat.zero_add]
  exact ⟨fun ⟨hroom, hfits, hends⟩ => ⟨hroom, hfits, hends⟩, fun h => ⟨h.room, h.fields, h.ends⟩⟩

theorem exists_lastCall_iff {h : List Line} {l : Line} {call : Call} :
    lastCall h l = some call ↔ Keeps h l ∧ call = callOf l.1 := by
  by_cases hacc : Accepted 0 (h ++ [l])
  · rw [lastCall_of_accepted hacc, and_iff_right (accepted_iff_keeps.mp hacc), Option.some_inj,
      eq_comm]
  · rw [lastCall_of_not_accepted hacc]
    exact iff_of_false (by simp) fun hk => hacc (accepted_iff_keeps.mpr hk.1)

theorem shell_history_iff (h₁ h₂ : List Line) (l : Line) :
    (∃ call, lastCall h₁ l = some call ∧ lastCall h₂ l = some call) ↔ Keeps h₁ l ∧ Keeps h₂ l := by
  constructor
  · rintro ⟨call, hcall₁, hcall₂⟩
    exact ⟨(exists_lastCall_iff.mp hcall₁).1, (exists_lastCall_iff.mp hcall₂).1⟩
  · rintro ⟨hkeeps₁, hkeeps₂⟩
    exact ⟨callOf l.1, exists_lastCall_iff.mpr ⟨hkeeps₁, rfl⟩, exists_lastCall_iff.mpr ⟨hkeeps₂,
      rfl⟩⟩

def lsLine : Line := ⟨chars ['l', 's'], by decide⟩

theorem keeps_lsLine {h : List Line} (hh : ∀ l ∈ h, l = lsLine)
    (hroom : (typed (h ++ [lsLine])).length ≤ 1000) :
    Keeps h lsLine := by
  have hentry : ∀ e, entryOf lsLine.1 = some e → e.form = .plain := by decide
  refine ⟨hroom, fun l hl e he hform => ?_, ?_⟩
  · obtain rfl : l = lsLine := (List.mem_append.mp hl).elim (hh l) List.mem_singleton.mp
    simp [hentry e he] at hform
  · rintro ⟨e, he, hform, -⟩
    simp [hentry e he] at hform

theorem shell_history_ls :
    ∃ call, lastCall [] lsLine = some call ∧ lastCall [lsLine, lsLine] lsLine = some call :=
  (shell_history_iff [] [lsLine, lsLine] lsLine).mpr
    ⟨keeps_lsLine (by simp) (by decide), keeps_lsLine (by simp) (by decide)⟩

theorem shell_history_full :
    lastCall [] lsLine = some (.plain .ls) ∧ lastCall (List.replicate 333 lsLine) lsLine = none :=
    by
  refine ⟨exists_lastCall_iff.mpr ⟨keeps_lsLine (by simp) (by decide), by decide⟩,
    lastCall_of_not_accepted fun hacc => ?_⟩
  have hroom := (accepted_iff_keeps.mp hacc).room
  revert hroom
  decide +kernel

end Ucas.Shell

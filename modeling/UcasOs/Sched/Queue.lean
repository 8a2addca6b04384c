import UcasOs.Lib.Linked

/-! The queues of `queue.c`: intrusive doubly linked lists over the `prev`/`next` fields of the
items. Every function is translated as it stands; a `NULL` dereference is a fault. -/

namespace Ucas.Sched
open Ucas.Lib

/-- How a kernel activity can fail to come to an end: it dereferences `NULL`, it loops for ever, or
the process it should run in is not the one that can take this step. -/
inductive Fault
  | nullDeref
  | hang
  | disabled
  deriving DecidableEq, Repr

variable {α ι : Type} [DecidableEq α] [DecidableEq ι]

namespace Heap

def setNext (h : Heap α ι) (a : α) (v : Option α) : Heap α ι :=
  { h with next := Function.update h.next a v }

def setPrev (h : Heap α ι) (a : α) (v : Option α) : Heap α ι :=
  { h with prev := Function.update h.prev a v }

def setHead (h : Heap α ι) (q : ι) (v : Option α) : Heap α ι :=
  { h with queue := Function.update h.queue q { h.queue q with head := v } }

def setTail (h : Heap α ι) (q : ι) (v : Option α) : Heap α ι :=
  { h with queue := Function.update h.queue q { h.queue q with tail := v } }

end Heap

open Heap

def queueInit (q : ι) (h : Heap α ι) : Heap α ι := setHead (setTail h q none) q none

def queueIsEmpty (q : ι) (h : Heap α ι) : Bool := (h.queue q).head.isNone

def queuePush (q : ι) (item : α) (h : Heap α ι) : Except Fault (Heap α ι) :=
  match (h.queue q).head with
  | none =>
    let h := setHead h q (some item)
    let h := setTail h q (some item)
    let h := setNext h item none
    .ok (setPrev h item none)
  | some _ =>
    match (h.queue q).tail with
    | none => .error .nullDeref
    | some t =>
      let h := setNext h t (some item)
      let h := setNext h item none
      let h := setPrev h item (h.queue q).tail
      .ok (setTail h q (some item))

def queueDequeue (q : ι) (h : Heap α ι) : Except Fault (α × Heap α ι) :=
  match (h.queue q).head with
  | none => .error .nullDeref
  | some temp =>
    let h := match h.next temp with
      | none => setTail (setHead h q none) q none
      | some n => setPrev (setHead h q (some n)) n none
    let h := setPrev h temp none
    .ok (temp, setNext h temp none)

/-- The loop of `check_in_queue`, and of every other search that follows `next` from the head. -/
def findFrom (next : α → Option α) (p : α → Bool) : Nat → Option α → Except Fault (Option α)
  | 0, _ => .error .hang
  | _ + 1, none => .ok none
  | fuel + 1, some a => if p a then .ok (some a) else findFrom next p fuel (next a)

/-- All items that the loops `head = head->next` of `lock.c` visit. -/
def itemsFrom (next : α → Option α) : Nat → Option α → Except Fault (List α)
  | 0, _ => .error .hang
  | _ + 1, none => .ok []
  | fuel + 1, some a => (itemsFrom next fuel (next a)).map (a :: ·)

def queueRemove (q : ι) (item : α) (h : Heap α ι) : Except Fault (Heap α ι) :=
  let unlink (h : Heap α ι) := setNext (setPrev h item none) item none
  if (h.queue q).head = some item ∧ (h.queue q).tail = some item then
    .ok (unlink (setTail (setHead h q none) q none))
  else if (h.queue q).head = some item then
    match h.next item with
    | none => .error .nullDeref
    | some n => .ok (unlink (setPrev (setHead h q (some n)) n none))
  else if (h.queue q).tail = some item then
    match h.prev item with
    | none => .error .nullDeref
    | some p => .ok (unlink (setNext (setTail h q (some p)) p none))
  else
    match h.prev item, h.next item with
    | some p, some n => .ok (unlink (setPrev (setNext h p (some n)) n (some p)))
    | _, _ => .error .nullDeref

section Refinement
variable {h : Heap α ι} {L : ι → List α} {q : ι} {item : α}

omit [DecidableEq α] in
theorem queueInit_family (hL : Family h L) : Family (queueInit q h) (Function.update L q []) := by
  refine hL.update (fun j hj => ?_) ⟨?_, ?_, trivial, List.nodup_nil⟩ (fun _ _ _ _ => ⟨rfl, rfl⟩)
    (fun _ _ _ ha => absurd ha (by simp))
  · simp [queueInit, setHead, setTail, Function.update_of_ne hj]
  · simp [queueInit, setHead, setTail]
  · simp [queueInit, setHead, setTail]

omit [DecidableEq α] [DecidableEq ι] in
theorem queueIsEmpty_iff (hL : Family h L) : queueIsEmpty q h = true ↔ L q = [] := by
  rw [queueIsEmpty, (hL.repr q).head, Option.isNone_iff_eq_none, List.head?_eq_none_iff]

theorem queuePush_family (hL : Family h L) (hitem : ∀ j, item ∉ L j) :
    ∃ h', queuePush q item h = .ok h' ∧ Family h' (Function.update L q (L q ++ [item])) := by
  obtain ⟨hh, ht, hs, hn⟩ := hL.repr q
  have hdisj : ∀ j, j ≠ q → (L q ++ [item]).Disjoint (L j) := by
    intro j hj a ha haj
    rcases List.mem_append.mp ha with ha | ha
    · exact hL.disjoint q j (Ne.symm hj) ha haj
    · exact hitem j (by simpa using List.mem_singleton.mp ha ▸ haj)
  have hnodup : (L q ++ [item]).Nodup := by
    refine List.nodup_append.mpr ⟨hn, List.nodup_singleton _, ?_⟩
    intro a ha b hb
    rintro rfl
    exact hitem q (List.mem_singleton.mp hb ▸ ha)
  rcases List.eq_nil_or_concat (L q) with hq | ⟨l, t, hq⟩
  · rw [hq, List.head?_nil] at hh
    refine ⟨_, by rw [queuePush, hh], hL.update ?_ ⟨?_, ?_, ?_, hnodup⟩ ?_ hdisj⟩
    · intro j hj
      simp [setHead, setTail, setNext, setPrev, Function.update_of_ne hj]
    · simp [setHead, setTail, setNext, setPrev, hq]
    · simp [setHead, setTail, setNext, setPrev, hq]
    · simp [setHead, setTail, setNext, setPrev, hq, Seg]
    · intro j _ a ha
      have hne : a ≠ item := fun e => hitem j (e ▸ ha)
      simp [setHead, setTail, setNext, setPrev, Function.update_of_ne hne]
  · rw [List.concat_eq_append] at hq
    have htl : t ∈ L q := by simp [hq]
    have hne : t ≠ item := fun e => hitem q (e ▸ htl)
    have hhead : ∃ a, (h.queue q).head = some a := by
      rw [hh, hq]
      cases l <;> simp
    obtain ⟨a, ha⟩ := hhead
    have htail : (h.queue q).tail = some t := by rw [ht, hq]; simp
    have hsub : ∀ b ∈ l, b ≠ t ∧ b ≠ item := by
      intro b hb
      rw [hq] at hn
      refine ⟨fun e => ?_, fun e => hitem q (by rw [← e, hq]; simp [hb])⟩
      exact (List.nodup_append.mp hn).2.2 b hb t (List.mem_singleton_self t) e
    rw [hq, seg_append] at hs
    obtain ⟨hl, hpt, -, -⟩ := hs
    refine ⟨_, by rw [queuePush, ha, htail], hL.update ?_ ⟨?_, ?_, ?_, hnodup⟩ ?_ hdisj⟩
    · intro j hj
      simp [setTail, setNext, setPrev, Function.update_of_ne hj]
    · rw [List.head?_append, ← hh, ha]
      simp [setTail, setNext, setPrev, ha]
    · simp [setTail, setNext, setPrev]
    · rw [hq, seg_append, seg_append]
      refine ⟨⟨seg_congr (fun b hb => ?_) (fun b hb => ?_) hl, ?_, ?_, trivial⟩, ?_, ?_, trivial⟩
      · simp [setTail, setNext, setPrev, hsub b hb]
      · simp [setTail, setNext, setPrev, hsub b hb]
      · simpa [setTail, setNext, setPrev, hne] using hpt
      · simp [setTail, setNext, setPrev, hne]
      · simp [setTail, setNext, setPrev, htail]
      · simp [setTail, setNext, setPrev]
    · intro j hj b hb
      have h1 : b ≠ item := fun e => hitem j (e ▸ hb)
      have h2 : b ≠ t := fun e => hL.disjoint q j (Ne.symm hj) htl (e ▸ hb)
      simp [setTail, setNext, setPrev, h1, h2]

theorem queueRemove_links {l m : List α} (hL : Family h L) (hq : L q = l ++ item :: m) :
    ∃ h', queueRemove q item h = .ok h' ∧ (∀ j, j ≠ q → h'.queue j = h.queue j) ∧
      h'.queue q = ⟨(l ++ m).head?, (l ++ m).getLast?⟩ ∧ ∀ b, b ≠ item →
        (h'.next b = if l.getLast? = some b then m.head? else h.next b) ∧
        (h'.prev b = if m.head? = some b then l.getLast? else h.prev b) := by
  obtain ⟨hh, ht, hs, hn⟩ := hL.repr q
  rw [hq] at hh ht hs hn
  have hl : item ∉ l := fun hl => (List.nodup_append.mp hn).2.2 item hl item (by simp) rfl
  have hm : item ∉ m := (List.nodup_cons.mp (List.nodup_append.mp hn).2.1).1
  obtain ⟨-, hprev, hnext, -⟩ := (seg_append ..).mp hs
  rcases List.eq_nil_or_concat l with rfl | ⟨k, p, rfl⟩
  · rcases m with _ | ⟨n, m⟩
    · have hh' : (h.queue q).head = some item := by simpa using hh
      have ht' : (h.queue q).tail = some item := by simpa using ht
      refine ⟨_, by rw [queueRemove, if_pos ⟨hh', ht'⟩], fun j hj => ?_, ?_, fun b hb => ?_⟩
      · simp [setHead, setTail, setNext, setPrev, hj]
      · simp [setHead, setTail, setNext, setPrev]
      · simp [setHead, setTail, setNext, setPrev, hb]
    · have hh' : (h.queue q).head = some item := by simpa using hh
      have ht' : (h.queue q).tail ≠ some item := by
        intro e
        rw [ht] at e
        have hlast := List.mem_of_getLast? (l := n :: m) (a := item)
          (by simpa [List.getLast?_cons] using e)
        exact hm hlast
      have hnext' : h.next item = some n := by simpa using hnext
      refine ⟨_, by rw [queueRemove, if_neg (fun e => ht' e.2), if_pos hh', hnext'],
        fun j hj => ?_, ?_, fun b hb => ?_⟩
      · simp [setHead, setNext, setPrev, hj]
      · simpa [setHead, setNext, setPrev, List.getLast?_cons] using ht
      · by_cases hbn : b = n
        · subst hbn
          simp [setHead, setNext, setPrev, hb]
        · simp [setHead, setNext, setPrev, hb, hbn, Ne.symm hbn]
  · rw [List.concat_eq_append] at *
    have hpm : p ≠ item := fun e => hl (by simp [e])
    have hh' : (h.queue q).head ≠ some item := by
      intro e
      rw [hh, List.append_assoc, List.singleton_append] at e
      have hhead := List.mem_of_head? (l := k ++ [p]) (a := item) (by cases k <;> simpa using e)
      exact hl hhead
    have hprev' : h.prev item = some p := by simpa using hprev
    rcases m with _ | ⟨n, m⟩
    · have ht' : (h.queue q).tail = some item := by simpa using ht
      refine ⟨_, by rw [queueRemove, if_neg (fun e => hh' e.1), if_neg hh', if_pos ht', hprev'],
        fun j hj => ?_, ?_, fun b hb => ?_⟩
      · simp [setTail, setNext, setPrev, hj]
      · rw [List.append_nil]
        simp [setTail, setNext, setPrev, hh, List.head?_append]
      · by_cases hbp : b = p
        · subst hbp
          simp [setTail, setNext, setPrev, hb]
        · simp [setTail, setNext, setPrev, hb, hbp, Ne.symm hbp]
    · have ht' : (h.queue q).tail ≠ some item := by
        intro e
        rw [ht] at e
        have hlast := List.mem_of_getLast? (l := n :: m) (a := item)
          (by simpa [List.getLast?_cons] using e)
        exact hm hlast
      have hnext' : h.next item = some n := by simpa using hnext
      refine ⟨_, by
        rw [queueRemove, if_neg (fun e => hh' e.1), if_neg hh', if_neg ht', hprev', hnext'],
        fun j hj => ?_, ?_, fun b hb => ?_⟩
      · simp [setNext, setPrev]
      · cases hk : h.queue q
        simp only [hk] at hh ht
        simp [setNext, setPrev, hk, hh, ht, List.head?_append, List.getLast?_cons]
      · refine ⟨?_, ?_⟩
        · by_cases hbp : b = p
          · subst hbp
            simp [setNext, setPrev, hb]
          · simp [setNext, setPrev, hb, hbp, Ne.symm hbp]
        · by_cases hbn : b = n
          · subst hbn
            simp [setNext, setPrev, hb]
          · simp [setNext, setPrev, hb, hbn, Ne.symm hbn]

theorem queueRemove_family (hL : Family h L) (hitem : item ∈ L q) :
    ∃ h', queueRemove q item h = .ok h' ∧ Family h' (Function.update L q ((L q).erase item)) := by
  obtain ⟨-, -, hs, hn⟩ := hL.repr q
  obtain ⟨l, m, hq⟩ := List.append_of_mem hitem
  obtain ⟨h', hrun, hqueue, hends, hlinks⟩ := queueRemove_links hL hq
  rw [hq] at hs hn
  have hd := List.nodup_append.mp hn
  have hl : item ∉ l := fun hl => hd.2.2 item hl item (by simp) rfl
  have hm : item ∉ m := (List.nodup_cons.mp hd.2.1).1
  have hlm : ∀ b ∈ l, b ∉ m := fun b hb hbm => hd.2.2 b hb b (by simp [hbm]) rfl
  have herase : (L q).erase item = l ++ m := by
    rw [hq, List.erase_append_right _ hl, List.erase_cons_head]
  have hkeep : ∀ b, b ≠ item → (b ∉ l → h'.next b = h.next b) ∧ (b ∉ m → h'.prev b = h.prev b) := by
    intro b hb
    refine ⟨fun hbl => ?_, fun hbm => ?_⟩
    · rw [(hlinks b hb).1, if_neg fun e => hbl (List.mem_of_getLast? e)]
    · rw [(hlinks b hb).2, if_neg fun e => hbm (List.mem_of_head? e)]
  refine ⟨h', hrun, herase ▸ hL.update hqueue ⟨?_, ?_, ?_, hn.sublist (by simp)⟩ ?_ ?_⟩
  · rw [hends]
  · rw [hends]
  · refine seg_unlink hs hn (fun b hb => ?_) (fun b hb => ?_) (fun b hb => ?_) (fun b hb => ?_)
    · exact (hkeep b fun e => hl (e ▸ hb)).2 (hlm b hb)
    · exact (hkeep b fun e => hm (e ▸ hb)).1 fun hbl => hlm b hbl hb
    · exact (hlinks b fun e => hl (e ▸ hb)).1
    · exact (hlinks b fun e => hm (e ▸ hb)).2
  · intro j hj b hb
    have hbq : b ∉ l ++ item :: m := hq ▸ fun hbq => hL.disjoint q j (Ne.symm hj) hbq hb
    have hne : b ≠ item := fun e => hbq (by simp [e])
    exact ⟨(hkeep b hne).1 fun h => hbq (by simp [h]), (hkeep b hne).2 fun h => hbq (by simp [h])⟩
  · intro j hj b hb hbj
    refine hL.disjoint q j (Ne.symm hj) ?_ hbj
    rw [hq]
    rcases List.mem_append.mp hb with h | h <;> simp [h]

theorem queueDequeue_eq_remove {l : List α} (hL : Family h L) (hq : L q = item :: l) :
    queueDequeue q h = (queueRemove q item h).map (Prod.mk item) := by
  obtain ⟨hh, ht, ⟨-, hnext, -⟩, hn⟩ := hq ▸ hL.repr q
  rw [List.head?_cons] at hh
  cases l with
  | nil =>
    have hnext' : h.next item = none := by simpa using hnext
    have ht' : (h.queue q).tail = some item := by simpa using ht
    rw [queueRemove, if_pos ⟨hh, ht'⟩]
    simp [queueDequeue, hh, hnext', Except.map]
  | cons n l =>
    have hnext' : h.next item = some n := by simpa using hnext
    have ht' : (h.queue q).tail ≠ some item := by
      intro e
      rw [ht] at e
      exact (List.nodup_cons.mp hn).1 (List.mem_of_getLast? (by simpa [List.getLast?_cons] using e))
    rw [queueRemove, if_neg fun e => ht' e.2, if_pos hh]
    simp [queueDequeue, hh, hnext', Except.map]

theorem queueDequeue_family {l : List α} (hL : Family h L) (hq : L q = item :: l) :
    ∃ h', queueDequeue q h = .ok (item, h') ∧ Family h' (Function.update L q l) := by
  obtain ⟨h', hrun, hfam⟩ := queueRemove_family hL (show item ∈ L q by simp [hq])
  refine ⟨h', by rw [queueDequeue_eq_remove hL hq, hrun]; rfl, ?_⟩
  simpa [hq] using hfam

omit [DecidableEq α] in
theorem findFrom_seg {next prev : α → Option α} {p : α → Bool} {l : List α} {o : Option α}
    {fuel : Nat}
    (hs : Seg next prev o l none) (hf : l.length < fuel) :
    findFrom next p fuel l.head? = .ok (l.find? p) := by
  induction l generalizing o fuel with
  | nil =>
    cases fuel with
    | zero => simp at hf
    | succ fuel => rfl
  | cons a l ih =>
    obtain ⟨-, hnext, hl⟩ := hs
    rw [Option.or_none] at hnext
    cases fuel with
    | zero => simp at hf
    | succ fuel =>
      rw [List.head?_cons, findFrom, List.find?_cons, hnext, ih hl (by simpa using hf)]
      cases p a <;> rfl

omit [DecidableEq α] [DecidableEq ι] in
theorem findFrom_eq (hL : Family h L) {p : α → Bool} {fuel : Nat} (hf : (L q).length < fuel) :
    findFrom h.next p fuel (h.queue q).head = .ok ((L q).find? p) := by
  rw [(hL.repr q).head]
  exact findFrom_seg (hL.repr q).seg hf

omit [DecidableEq α] in
theorem itemsFrom_seg {next prev : α → Option α} {l : List α} {o : Option α} {fuel : Nat}
    (hs : Seg next prev o l none) (hf : l.length < fuel) : itemsFrom next fuel l.head? = .ok l := by
  induction l generalizing o fuel with
  | nil =>
    cases fuel with
    | zero => simp at hf
    | succ fuel => rfl
  | cons a l ih =>
    obtain ⟨-, hnext, hl⟩ := hs
    rw [Option.or_none] at hnext
    cases fuel with
    | zero => simp at hf
    | succ fuel =>
      rw [List.head?_cons, itemsFrom, hnext, ih hl (by simpa using hf)]
      rfl

end Refinement

end Ucas.Sched

import Mathlib.Data.List.Nodup
import Mathlib.Logic.Function.Basic

/-! Doubly linked lists threaded through a shared heap of nodes. A family of lists shares the one
`next`/`prev` pair of every node, so each list owns its nodes and the rules below say which
pointer writes append, unlink or pop a node of one list and leave the others alone. -/

namespace Ucas.Lib

structure Ends (α : Type*) where
  head : Option α
  tail : Option α
  deriving DecidableEq

structure Heap (α ι : Type*) where
  next : α → Option α
  prev : α → Option α
  queue : ι → Ends α

variable {α ι : Type*}

def Seg (next prev : α → Option α) : Option α → List α → Option α → Prop
  | _, [], _ => True
  | p, a :: l, n => prev a = p ∧ next a = l.head?.or n ∧ Seg next prev (some a) l n

theorem seg_append (next prev : α → Option α) (l m : List α) (p n : Option α) :
    Seg next prev p (l ++ m) n ↔
      Seg next prev p l (m.head?.or n) ∧ Seg next prev (l.getLast?.or p) m n := by
  induction l generalizing p with
  | nil => simp [Seg]
  | cons a l ih =>
    have hlast : (a :: l).getLast?.or p = l.getLast?.or (some a) := by
      cases l with
      | nil => rfl
      | cons b l => simp [List.getLast?_cons]
    simp only [List.cons_append, Seg, ih, hlast, List.head?_append, Option.or_assoc, and_assoc]

theorem seg_congr {next prev next' prev' : α → Option α} {l : List α} {p n : Option α}
    (hn : ∀ a ∈ l, next' a = next a) (hp : ∀ a ∈ l, prev' a = prev a)
    (h : Seg next prev p l n) : Seg next' prev' p l n := by
  induction l generalizing p with
  | nil => trivial
  | cons a l ih =>
    obtain ⟨h1, h2, h3⟩ := h
    refine ⟨(hp a (List.mem_cons_self ..)).trans h1, (hn a (List.mem_cons_self ..)).trans h2, ?_⟩
    exact ih (fun b hb => hn b (List.mem_cons_of_mem _ hb))
      (fun b hb => hp b (List.mem_cons_of_mem _ hb)) h3

theorem seg_unlink [DecidableEq α] {next prev next' prev' : α → Option α} {l m : List α} {a : α}
    (h : Seg next prev none (l ++ a :: m) none) (hnodup : (l ++ a :: m).Nodup)
    (hpl : ∀ b ∈ l, prev' b = prev b) (hnm : ∀ b ∈ m, next' b = next b)
    (hnl : ∀ b ∈ l, next' b = if l.getLast? = some b then m.head? else next b)
    (hpm : ∀ b ∈ m, prev' b = if m.head? = some b then l.getLast? else prev b) :
    Seg next' prev' none (l ++ m) none := by
  rw [seg_append] at h ⊢
  obtain ⟨hl, -, -, hm⟩ := h
  have hd := List.nodup_append.mp hnodup
  refine ⟨?_, ?_⟩
  · rcases List.eq_nil_or_concat l with rfl | ⟨k, b, rfl⟩
    · trivial
    rw [List.concat_eq_append] at *
    rw [seg_append] at hl ⊢
    refine ⟨seg_congr (fun c hc => ?_) (fun c hc => hpl c (by simp [hc])) hl.1, ?_, ?_, trivial⟩
    · have hne : b ≠ c := fun e =>
        (List.nodup_append.mp hd.1).2.2 c hc b (List.mem_singleton_self b) e.symm
      simpa [hne] using hnl c (by simp [hc])
    · rw [hpl b (by simp)]
      exact hl.2.1
    · simpa using hnl b (by simp)
  · cases m with
    | nil => trivial
    | cons b m =>
      refine ⟨by simpa using hpm b (by simp), (hnm b (by simp)).trans hm.2.1, ?_⟩
      refine seg_congr (fun c hc => hnm c (by simp [hc])) (fun c hc => ?_) hm.2.2
      have hne : b ≠ c := by
        rintro rfl
        exact (List.nodup_cons.mp (List.nodup_cons.mp hd.2.1).2).1 hc
      simpa [hne] using hpm c (by simp [hc])

structure Represents (next prev : α → Option α) (e : Ends α) (l : List α) : Prop where
  head : e.head = l.head?
  tail : e.tail = l.getLast?
  seg : Seg next prev none l none
  nodup : l.Nodup

/-- Every list of the family is represented, and no node is in two of them. -/
structure Family (h : Heap α ι) (L : ι → List α) : Prop where
  repr : ∀ i, Represents h.next h.prev (h.queue i) (L i)
  disjoint : ∀ i j, i ≠ j → (L i).Disjoint (L j)

def walk (next : α → Option α) : Nat → Option α → List α
  | 0, _ => []
  | _ + 1, none => []
  | fuel + 1, some a => a :: walk next fuel (next a)

theorem walk_eq_of_seg {next prev : α → Option α} {l : List α} {p : Option α} {fuel : Nat}
    (h : Seg next prev p l none) (hl : l.length ≤ fuel) : walk next fuel l.head? = l := by
  induction l generalizing p fuel with
  | nil => cases fuel <;> rfl
  | cons a l ih =>
    obtain ⟨_, h2, h3⟩ := h
    cases fuel with
    | zero => simp at hl
    | succ fuel =>
      rw [Option.or_none] at h2
      simp only [List.head?_cons, walk, h2, ih h3 (by simpa using hl)]

variable [DecidableEq ι]

theorem disjoint_update {L : ι → List α} {i : ι} {l : List α}
    (hd : ∀ j k, j ≠ k → (L j).Disjoint (L k)) (hl : ∀ j, j ≠ i → l.Disjoint (L j)) :
    ∀ j k, j ≠ k → (Function.update L i l j).Disjoint (Function.update L i l k) := by
  intro j k hjk
  by_cases hj : j = i
  · subst hj
    simpa [Function.update_of_ne (Ne.symm hjk)] using hl k (Ne.symm hjk)
  · by_cases hk : k = i
    · subst hk
      rw [Function.update_self, Function.update_of_ne hj]
      exact fun a ha hl' => hl j hj hl' ha
    · simpa [Function.update_of_ne hj, Function.update_of_ne hk] using hd j k hjk

theorem Family.update {h h' : Heap α ι} {L : ι → List α} (hL : Family h L) {i : ι} {l : List α}
    (hq : ∀ j, j ≠ i → h'.queue j = h.queue j) (hi : Represents h'.next h'.prev (h'.queue i) l)
    (hn : ∀ j, j ≠ i → ∀ a ∈ L j, h'.next a = h.next a ∧ h'.prev a = h.prev a)
    (hl : ∀ j, j ≠ i → l.Disjoint (L j)) : Family h' (Function.update L i l) := by
  refine ⟨fun j => ?_, disjoint_update hL.disjoint hl⟩
  by_cases hj : j = i
  · subst hj
    simpa using hi
  · rw [Function.update_of_ne hj, hq j hj]
    obtain ⟨h1, h2, h3, h4⟩ := hL.repr j
    exact ⟨h1, h2, seg_congr (fun a ha => (hn j hj a ha).1) (fun a ha => (hn j hj a ha).2) h3, h4⟩

end Ucas.Lib

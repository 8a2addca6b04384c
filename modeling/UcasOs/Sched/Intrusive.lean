import UcasOs.Sched.Refine

/-! The queue functions as list operations: on a family of queues over one heap of control blocks
each of them does to its own queue what the list operation does, and nothing to the others. -/

namespace Ucas.Sched
open Ucas.Lib Heap

section Enqueue
variable {α ι : Type} [DecidableEq α] [DecidableEq ι]

def Heap.enqueue (q : ι) (item : α) (h : Heap α ι) : Heap α ι :=
  match (h.queue q).head with
  | none =>
    let h := setHead h q (some item)
    let h := setTail h q (some item)
    let h := setNext h item none
    setPrev h item none
  | some a =>
    let h := setPrev h a (some item)
    let h := setPrev h item none
    let h := setNext h item (h.queue q).head
    setHead h q (some item)

/-- `queue_remove` with the value it returns, which no caller uses: the item behind the removed one.
-/
def queueRemoveNext (q : ι) (item : α) (h : Heap α ι) : Except Fault (Option α × Heap α ι) :=
  (queueRemove q item h).map fun h' => (h.next item, h')

variable {h : Heap α ι} {L : ι → List α} {q : ι} {item : α}

theorem enqueue_family (hL : Family h L) (hitem : ∀ j, item ∉ L j) :
    Family (Heap.enqueue q item h) (Function.update L q (item :: L q)) := by
  obtain ⟨hh, ht, hs, hn⟩ := hL.repr q
  have hdisj : ∀ j, j ≠ q → (item :: L q).Disjoint (L j) := by
    intro j hj a ha haj
    obtain rfl | ha := List.mem_cons.mp ha
    · exact hitem j haj
    · exact hL.disjoint q j (Ne.symm hj) ha haj
  have hnodup : (item :: L q).Nodup := List.nodup_cons.mpr ⟨hitem q, hn⟩
  cases hq : L q with
  | nil =>
    rw [hq, List.head?_nil] at hh
    rw [hq] at hdisj hnodup
    unfold Heap.enqueue
    rw [hh]
    refine hL.update (fun j hj => ?_) ⟨?_, ?_, ?_, hnodup⟩ (fun j _ a ha => ?_) hdisj
    · simp [setHead, setTail, setNext, setPrev, Function.update_of_ne hj]
    · simp [setHead, setTail, setNext, setPrev]
    · simp [setHead, setTail, setNext, setPrev]
    · simp [setHead, setTail, setNext, setPrev, Seg]
    · have hne : a ≠ item := fun e => hitem j (e ▸ ha)
      simp [setHead, setTail, setNext, setPrev, Function.update_of_ne hne]
  | cons b l =>
    rw [hq, List.head?_cons] at hh
    rw [hq] at hdisj hnodup ht hs
    obtain ⟨hbl, hl⟩ := List.nodup_cons.mp (List.nodup_cons.mp hnodup).2
    have hne : ∀ a ∈ b :: l, a ≠ item := fun a ha e => hitem q (by rw [hq, ← e]; exact ha)
    unfold Heap.enqueue
    rw [hh]
    refine hL.update (fun j hj => ?_) ⟨?_, ?_, ⟨?_, ?_, ?_, ?_, ?_⟩, hnodup⟩ (fun j hj a ha => ?_)
      hdisj
    · simp [setHead, setNext, setPrev, Function.update_of_ne hj]
    · simp [setHead, setNext, setPrev]
    · simpa [setHead, setNext, setPrev, List.getLast?_cons] using ht
    · simp [setHead, setNext, setPrev]
    · simp [setHead, setNext, setPrev, hh]
    · simp [setHead, setNext, setPrev, hne b List.mem_cons_self]
    · simpa [setHead, setNext, setPrev, hne b List.mem_cons_self] using hs.2.1
    · -- behind the old head no link is touched
      refine seg_congr (fun a ha => ?_) (fun a ha => ?_) hs.2.2
      · simp [setHead, setNext, setPrev, hne a (List.mem_cons_of_mem _ ha)]
      · have hab : a ≠ b := fun e => hbl (e ▸ ha)
        simp [setHead, setNext, setPrev, hne a (List.mem_cons_of_mem _ ha), hab]
    · have h1 : a ≠ item := fun e => hitem j (e ▸ ha)
      have h2 : a ≠ b := fun e => hL.disjoint q j (Ne.symm hj) (by simp [hq]) (e ▸ ha)
      simp [setHead, setNext, setPrev, h1, h2]

theorem queueRemove_item {h' : Heap α ι} (hrun : queueRemove q item h = .ok h') :
    h'.next item = none ∧ h'.prev item = none := by
  have hunlink : ∀ g : Heap α ι, (setNext (setPrev g item none) item none).next item = none ∧
      (setNext (setPrev g item none) item none).prev item = none := fun g => by
    simp [setNext, setPrev]
  unfold queueRemove at hrun
  split_ifs at hrun
  · rw [← Except.ok.inj hrun]
    exact hunlink _
  · split at hrun
    · cases hrun
    · rw [← Except.ok.inj hrun]
      exact hunlink _
  · split at hrun
    · cases hrun
    · rw [← Except.ok.inj hrun]
      exact hunlink _
  · split at hrun
    · rw [← Except.ok.inj hrun]
      exact hunlink _
    · cases hrun

omit [DecidableEq α] [DecidableEq ι] in
theorem next_of_family {l m : List α} (hL : Family h L) (hq : L q = l ++ item :: m) :
    h.next item = m.head? := by
  obtain ⟨-, -, hs, -⟩ := hL.repr q
  rw [hq, seg_append] at hs
  obtain ⟨-, -, hnext, -⟩ := hs
  simpa using hnext

end Enqueue

/-- Each queue function refines its list operation and leaves the other queues of the family alone.
-/
theorem queues_refine_lists {h : Links} {L : Lists} (hL : Family h L) (q : QueueRef)
    (item : PcbRef) :
    Family (queueInit q h) (Function.update L q []) ∧
    ((∀ j, item ∉ L j) →
      (∃ h', queuePush q item h = .ok h' ∧ Family h' (Function.update L q (L q ++ [item]))) ∧
      Family (Heap.enqueue q item h) (Function.update L q (item :: L q))) ∧
    (∀ l, L q = item :: l → ∃ h', queueDequeue q h = .ok (item, h') ∧
    Family h' (Function.update L q l) ∧
      h'.next item = none ∧ h'.prev item = none) ∧
    (∀ l m, L q = l ++ item :: m → ∃ h', queueRemoveNext q item h = .ok (m.head?, h') ∧
      Family h' (Function.update L q ((L q).erase item)) ∧ h'.next item = none ∧
      h'.prev item = none) ∧
    checkInQueue q item h = .ok (decide (item ∈ L q)) ∧ (queueIsEmpty q h = true ↔ L q = []) := by
  refine ⟨queueInit_family hL, fun hitem => ⟨queuePush_family hL hitem, enqueue_family hL hitem⟩,
    fun l hq => ?_,
    fun l m hq => ?_, checkInQueue_eq hL q item, queueIsEmpty_iff hL⟩
  · obtain ⟨h', hrun, hfam⟩ := queueDequeue_family hL hq
    have hrun' := hrun
    rw [queueDequeue_eq_remove hL hq] at hrun'
    cases hremove : queueRemove q item h with
    | error e =>
      rw [hremove] at hrun'
      cases hrun'
    | ok g =>
      rw [hremove] at hrun'
      cases hrun'
      exact ⟨h', hrun, hfam, queueRemove_item hremove⟩
  · obtain ⟨h', hrun, hfam⟩ := queueRemove_family hL (show item ∈ L q by simp [hq])
    refine ⟨h', ?_, hfam, queueRemove_item hrun⟩
    rw [queueRemoveNext, hrun, next_of_family hL hq]
    rfl

section TwoQueues
variable {h : Links} {l m : List PcbRef} {p : PcbRef}

def twoQueues (ready sleeping : List PcbRef) : Lists :=
  Function.update (Function.update (fun _ => []) .ready ready) .sleeping sleeping

theorem update_ready_twoQueues (l l' m : List PcbRef) :
    Function.update (twoQueues l m) .ready l' = twoQueues l' m := by
  rw [twoQueues, Function.update_comm (by simp), Function.update_idem, twoQueues]

theorem update_sleeping_twoQueues (l m m' : List PcbRef) :
    Function.update (twoQueues l m) .sleeping m' = twoQueues l m' := by
  rw [twoQueues, Function.update_idem, twoQueues]

theorem notMem_twoQueues (hl : p ∉ l) (hm : p ∉ m) (q : QueueRef) : p ∉ twoQueues l m q := by
  by_cases hs : q = .sleeping
  · simpa [twoQueues, hs] using hm
  · by_cases hr : q = .ready
    · simpa [twoQueues, hr] using hl
    · simp [twoQueues, hs, hr]

theorem push_ready_twoQueues (hL : Family h (twoQueues l m)) (hl : p ∉ l) (hm : p ∉ m) :
    ∃ h', Family h' (twoQueues (l ++ [p]) m) := by
  obtain ⟨h', -, hfam⟩ := queuePush_family (q := QueueRef.ready) hL (notMem_twoQueues hl hm)
  rw [update_ready_twoQueues] at hfam
  exact ⟨h', hfam⟩

theorem push_sleeping_twoQueues (hL : Family h (twoQueues l m)) (hl : p ∉ l) (hm : p ∉ m) :
    ∃ h', Family h' (twoQueues l (m ++ [p])) := by
  obtain ⟨h', -, hfam⟩ := queuePush_family (q := QueueRef.sleeping) hL (notMem_twoQueues hl hm)
  rw [update_sleeping_twoQueues] at hfam
  exact ⟨h', hfam⟩

theorem queues_refine_lists_two : ∃ h h₁ h₂ : Links,
    Family h (twoQueues [shell, .task ⟨0, by decide⟩, .task ⟨2, by decide⟩]
      [.init, .task ⟨3, by decide⟩]) ∧
    queueRemoveNext .ready (.task ⟨0, by decide⟩) h = .ok (some (.task ⟨2, by decide⟩), h₁) ∧
    Family h₁ (twoQueues [shell, .task ⟨2, by decide⟩] [.init, .task ⟨3, by decide⟩]) ∧
    queueDequeue .sleeping h₁ = .ok (.init, h₂) ∧
    Family h₂ (twoQueues [shell, .task ⟨2, by decide⟩] [.task ⟨3, by decide⟩]) := by
  have h₀ : Family emptyLinks (twoQueues [] []) := by
    simpa [twoQueues] using emptyLinks_family
  obtain ⟨_, hL⟩ := push_ready_twoQueues (p := shell) h₀ (by simp) (by simp)
  obtain ⟨_, hL⟩ := push_ready_twoQueues (p := .task ⟨0, by decide⟩) hL (by decide) (by simp)
  obtain ⟨_, hL⟩ := push_ready_twoQueues (p := .task ⟨2, by decide⟩) hL (by decide) (by simp)
  obtain ⟨_, hL⟩ := push_sleeping_twoQueues (p := .init) hL (by decide) (by simp)
  obtain ⟨h, hL⟩ := push_sleeping_twoQueues (p := .task ⟨3, by decide⟩) hL (by decide) (by decide)
  obtain ⟨h₁, hrun₁, hL₁, -⟩ := (queues_refine_lists hL .ready (.task ⟨0, by decide⟩)).2.2.2.1
    [shell] [.task ⟨2, by decide⟩] rfl
  rw [update_ready_twoQueues] at hL₁
  obtain ⟨h₂, hrun₂, hL₂, -⟩ := (queues_refine_lists hL₁ .sleeping .init).2.2.1
    [.task ⟨3, by decide⟩] rfl
  rw [update_sleeping_twoQueues] at hL₂
  exact ⟨h, h₁, h₂, hL, hrun₁, hL₁, hrun₂, hL₂⟩

end TwoQueues

end Ucas.Sched

import UcasOs.Sched.Sleep

/-! Whom `scheduler` dispatches and whom `do_unblock_one` wakes. Both follow their queue as long as
the priority rises, and so stop at the first process that is followed by one of no higher priority.
-/

namespace Ucas.Sched
open Ucas.Lib

variable {s t : Kernel} {L : Lists} {p : PcbRef} {q : QueueRef} {l : List PcbRef} {priority : PcbRef
  → Int}

/-- The priority rises from the head of the queue to a process that none behind it exceeds. -/
def RisesToMax (priority : PcbRef → Int) (l : List PcbRef) : Prop :=
  ∃ before p after, l = before ++ p :: after ∧ (before ++ [p]).Pairwise (priority · < priority ·) ∧
    ∀ b ∈ after, priority b ≤ priority p

section Peak

theorem firstPeak_split (priority : PcbRef → Int) (p : PcbRef) (l : List PcbRef) :
    ∃ before after, p :: l = before ++ firstPeak priority p l :: after ∧
      (before ++ [firstPeak priority p l]).Pairwise (priority · < priority ·) := by
  induction l generalizing p with
  | nil => exact ⟨[], [], rfl, List.pairwise_singleton ..⟩
  | cons b l ih =>
    rw [firstPeak]
    split
    · next hrise =>
      obtain ⟨before, after, hsplit, hpair⟩ := ih b
      refine ⟨p :: before, after, by rw [hsplit]; rfl, List.pairwise_cons.mpr ⟨fun c hc => ?_,
        hpair⟩⟩
      -- `b` is the first of what follows, and the others are above it
      cases before with
      | nil =>
        obtain ⟨hb, -⟩ := List.cons.inj hsplit
        rw [List.mem_singleton.mp hc, ← hb]
        exact hrise
      | cons b' before =>
        obtain ⟨rfl, -⟩ := List.cons.inj hsplit
        rcases List.mem_cons.mp hc with rfl | hc
        · exact hrise
        · exact hrise.trans ((List.pairwise_cons.mp hpair).1 c hc)
    · exact ⟨[], b :: l, rfl, List.pairwise_singleton ..⟩

theorem firstPeak_of_le (h : ∀ b ∈ l, priority b ≤ priority p) : firstPeak priority p l = p := by
  cases l with
  | nil => rfl
  | cons b l => rw [firstPeak, if_neg (Int.not_lt.mpr (h b List.mem_cons_self))]

theorem firstPeak_append {r : PcbRef} {before after : List PcbRef}
    (h : (p :: before ++ [r]).Pairwise (priority · < priority ·)) :
    firstPeak priority p (before ++ r :: after) = firstPeak priority r after := by
  induction before generalizing p with
  | nil => rw [List.nil_append, firstPeak, if_pos ((List.pairwise_cons.mp h).1 r (by simp))]
  | cons b before ih =>
    obtain ⟨hp, hrest⟩ := List.pairwise_cons.mp h
    rw [List.cons_append, firstPeak, if_pos (hp b (by simp))]
    exact ih hrest

theorem risesToMax_iff :
    RisesToMax priority (p :: l) ↔ ∀ b ∈ p :: l, priority b ≤ priority (firstPeak priority p l) :=
      by
  constructor
  · rintro ⟨before, r, after, hsplit, hpair, hafter⟩ b hb
    have hpeak : firstPeak priority p l = r := by
      cases before with
      | nil =>
        obtain ⟨rfl, rfl⟩ := List.cons.inj hsplit
        exact firstPeak_of_le hafter
      | cons c before =>
        obtain ⟨rfl, hl⟩ := List.cons.inj hsplit
        rw [show l = before ++ r :: after from hl, firstPeak_append hpair, firstPeak_of_le hafter]
    rw [hpeak]
    rw [hsplit] at hb
    rcases List.mem_append.mp hb with hb | hb
    · exact (List.pairwise_append.mp hpair).2.2 b hb r (List.mem_singleton_self r) |>.le
    · rcases List.mem_cons.mp hb with rfl | hb
      · exact le_rfl
      · exact hafter b hb
  · intro hmax
    obtain ⟨before, after, hsplit, hpair⟩ := firstPeak_split priority p l
    refine ⟨before, _, after, hsplit, hpair, fun b hb => hmax b ?_⟩
    rw [hsplit]
    exact List.mem_append_right _ (List.mem_cons_of_mem _ hb)

end Peak

/-- The links are those of queues apart from each other, and the process that runs is in none. -/
structure Kernel.Linked (s : Kernel) : Prop where
  family : Family s.queues s.members
  running : s.status s.currentRunning = .running → Unqueued s.members s.currentRunning

/-- The ready queue when `scheduler` chooses: behind those that are ready come the process that
gives up the processor and the sleeper that is woken. -/
def Kernel.candidates (s : Kernel) : List PcbRef :=
  s.members .ready ++
    (if s.status s.currentRunning = .running ∧ s.entryPoint s.currentRunning ≠ 0 then
      [s.currentRunning] else []) ++
    ((s.members .sleeping).find? s.due).toList

/-- `scheduler` leaves nobody in the ready queue with a higher priority than the process it
dispatches. -/
def Kernel.DispatchesMax (s : Kernel) : Prop :=
  ∃ t, scheduler s = .ok t ∧ ∀ p ∈ t.members .ready, s.priority p ≤ s.priority t.currentRunning

/-- `do_unblock_one` makes a process of the queue ready that has the highest priority there. -/
def Kernel.WakesMax (q : QueueRef) (s : Kernel) : Prop :=
  ∃ t p, doUnblockOne q s = .ok t ∧ p ∈ s.members q ∧ t.members q = (s.members q).erase p ∧
    t.members .ready = s.members .ready ++ [p] ∧ t.status p = .ready ∧ ∀ b ∈ s.members q, s.priority
      b ≤ s.priority p

theorem yieldCurrent_ready (hs : s.Linked) : ∃ t L, yieldCurrent s = .ok t ∧ Family t.queues L ∧
    L .ready = s.members .ready ++
      (if s.status s.currentRunning = .running ∧ s.entryPoint s.currentRunning ≠ 0 then
      [s.currentRunning] else []) ∧
    L .sleeping = s.members .sleeping ∧ t.due = s.due ∧ t.priority = s.priority := by
  simp only [yieldCurrent]
  by_cases hrun : s.status s.currentRunning = .running
  · rw [if_pos hrun]
    by_cases hentry : s.entryPoint s.currentRunning ≠ 0
    · obtain ⟨h', hpush, hfam⟩ := queuePush_family (q := QueueRef.ready) hs.family (hs.running hrun)
      rw [if_pos hentry, if_pos ⟨hrun, hentry⟩]
      simp only [makeReady, hpush, ok_bind, pure_eq_ok]
      exact ⟨_, _, rfl, hfam, Function.update_self .., Function.update_of_ne (by decide) .., rfl,
        rfl⟩
    · rw [if_neg hentry, if_neg fun h => hentry h.2]
      exact ⟨_, _, rfl, hs.family, (List.append_nil _).symm, rfl, rfl, rfl⟩
  · rw [if_neg hrun, if_neg fun h => hrun h.1]
    exact ⟨_, _, rfl, hs.family, (List.append_nil _).symm, rfl, rfl, rfl⟩

theorem checkSleeping_ready (hL : Family s.queues L) :
    ∃ t L', checkSleeping s = .ok t ∧ Family t.queues L' ∧
    L' .ready = L .ready ++ ((L .sleeping).find? s.due).toList ∧ t.priority = s.priority := by
  cases hfind : (L .sleeping).find? s.due with
  | none => exact ⟨s, L, checkSleeping_of_none hL hfind, hL, (List.append_nil _).symm, rfl⟩
  | some p =>
    obtain ⟨queues, hrun, hfam⟩ := checkSleeping_of_some hL hfind
    exact ⟨_, _, hrun, hfam, by simp [enqueue, unlink], rfl⟩

theorem scheduler_picks (hs : s.Linked) (hcand : s.candidates = p :: l) : ∃ t, scheduler s = .ok t ∧
    t.currentRunning = firstPeak s.priority p l ∧ t.members .ready = (p :: l).erase
    (firstPeak s.priority p l) := by
  obtain ⟨t, L, hyield, hL, hready, hsleeping, hdue, hprio⟩ := yieldCurrent_ready hs
  obtain ⟨u, L', hcheck, hL', hready', hprio'⟩ := checkSleeping_ready hL
  have hlist : L' .ready = p :: l := by
    rw [hready', hready, hsleeping, hdue, ← hcand, Kernel.candidates]
  have hpeak : firstPeak s.priority p l ∈ L' .ready := hlist ▸ firstPeak_mem s.priority p l
  obtain ⟨h', hremove, hfam⟩ := queueRemove_family hL' hpeak
  have hclimb := queueClimb_eq hL' hlist u.priority
  rw [scheduler_eq (s := s) (u := u) (by rw [hyield]; exact hcheck), awaitReady_of_ready hL'
    (by rw [hlist]; simp), ok_bind,
    dispatch, hclimb, ok_bind, hprio', hprio]
  dsimp only
  rw [hremove]
  refine ⟨_, rfl, rfl, ?_⟩
  rw [members_of_family hfam, Function.update_self, hlist]

theorem doUnblockOne_picks (hs : Family s.queues s.members) (hq : s.members q = p :: l)
    (hne : q ≠ .ready) :
    ∃ t, doUnblockOne q s = .ok t ∧ t.members q = (s.members q).erase (firstPeak s.priority p l) ∧
      t.members .ready = s.members .ready ++ [firstPeak s.priority p l] ∧
      t.status (firstPeak s.priority p l) = .ready := by
  have hpeak : firstPeak s.priority p l ∈ s.members q := hq ▸ firstPeak_mem s.priority p l
  have hnonempty : queueIsEmpty q s.queues = false := by
    simpa [hq] using mt (queueIsEmpty_iff (q := q) hs).mp
  obtain ⟨queues, hrun, hfam⟩ := wake_eq hs hpeak
  have hunblock : doUnblockOne q s =
      .ok { s with
        status := Function.update s.status (firstPeak s.priority p l) .ready
        queues := queues } := by
    rw [doUnblockOne, hnonempty, queueClimb_eq hs hq, ok_bind]
    exact hrun
  refine ⟨_, hunblock, ?_, ?_, Function.update_self ..⟩
  · rw [members_of_family hfam]
    simp [enqueue, unlink, hne]
  · rw [members_of_family hfam]
    simp [enqueue, unlink, hne.symm]

theorem picks_max_iff (hs : s.Linked) :
    (s.candidates ≠ [] → (s.DispatchesMax ↔ RisesToMax s.priority s.candidates)) ∧
      ∀ q, q ≠ .ready → s.members q ≠ [] → (s.WakesMax q ↔ RisesToMax s.priority (s.members q)) :=
      by
  refine ⟨fun hready => ?_, fun q hne hq => ?_⟩
  · obtain ⟨p, l, hcand⟩ := List.exists_cons_of_ne_nil hready
    obtain ⟨t, ht, hcur, hleft⟩ := scheduler_picks hs hcand
    rw [hcand, risesToMax_iff]
    constructor
    · rintro ⟨t', ht', hmax⟩ b hb
      obtain rfl := Except.ok.inj (ht.symm.trans ht')
      rw [hcur, hleft] at hmax
      by_cases hpeak : b = firstPeak s.priority p l
      · rw [hpeak]
      · exact hmax b ((List.mem_erase_of_ne hpeak).mpr hb)
    · intro hmax
      refine ⟨t, ht, fun b hb => ?_⟩
      rw [hleft] at hb
      rw [hcur]
      exact hmax b (List.mem_of_mem_erase hb)
  · obtain ⟨p, l, hlist⟩ := List.exists_cons_of_ne_nil hq
    obtain ⟨t, ht, hleft, hready, hstatus⟩ := doUnblockOne_picks hs.family hlist hne
    rw [hlist, risesToMax_iff]
    constructor
    · rintro ⟨t', r, ht', -, -, hready', -, hmax⟩
      obtain rfl := Except.ok.inj (ht.symm.trans ht')
      rw [hready, List.append_cancel_left_eq, List.cons.injEq] at hready'
      rw [hready'.1, ← hlist]
      exact hmax
    · intro hmax
      refine ⟨t, _, ht, hlist ▸ firstPeak_mem s.priority p l, hleft, hready, hstatus, ?_⟩
      rw [hlist]
      exact hmax

theorem linked_of_reachable (h : Reachable KillsFind s) : s.Linked := by
  obtain ⟨a, hs, hT, -⟩ := reachable_queuedReady h
  refine ⟨family_of_reachable h, fun hrun => ?_⟩
  rw [show s.members = a.lists from funext hs.1.members]
  obtain ⟨⟨L, hL, rfl⟩, -⟩ := hs
  exact hT.running _ hrun

theorem dispatches_max_of_two : ∃ s : Kernel, s.Linked ∧ s.candidates ≠ [] ∧ s.DispatchesMax := by
  obtain ⟨s, hs, htest⟩ := exists_of_endsIn
    (t := fun s : Kernel => s.candidates = [.task ⟨0, by decide⟩, shell] ∧
      s.priority shell ≤ s.priority (.task ⟨0, by decide⟩))
    (r := execute 1 [.schedule, .spawn ⟨1⟩]) (by decide +kernel)
  obtain ⟨hcand, hle⟩ := of_decide_eq_true htest
  have hlinked := linked_of_reachable (reachable_execute (by decide) (by simp [KillsFind, AnyCall])
    hs)
  have hne : s.candidates ≠ [] := by simp [hcand]
  refine ⟨s, hlinked, hne, ((picks_max_iff hlinked).1 hne).mpr ⟨[], _, _, hcand, by simp,
    fun b hb => ?_⟩⟩
  rw [List.mem_singleton.mp hb]
  exact hle

theorem dispatches_less_than_max :
    ∃ s t : Kernel, Reachable KillsFind s ∧ s.members .ready ≠ [] ∧ scheduler s = .ok t ∧
    (∃ p ∈ t.members .ready, s.priority t.currentRunning < s.priority p ∧
    t.priority t.currentRunning < t.priority p) ∧
    ¬ s.DispatchesMax := by
  obtain ⟨s, hs, htest⟩ := exists_of_endsIn
    (t := fun s : Kernel => s.members .ready ≠ [] ∧ endsIn (fun t : Kernel =>
      PcbRef.task ⟨3, by decide⟩ ∈ t.members .ready ∧
        s.priority t.currentRunning < s.priority (.task ⟨3, by decide⟩) ∧
        t.priority t.currentRunning < t.priority (.task ⟨3, by decide⟩)) (scheduler s) = true)
    (r := execute 1 [.schedule, .spawn ⟨1⟩, .spawn ⟨2⟩, .tick false, .tick false, .spawn ⟨3⟩])
      (by decide +kernel)
  obtain ⟨hready, htest⟩ := of_decide_eq_true htest
  obtain ⟨t, ht, htest⟩ := exists_of_endsIn htest
  obtain ⟨hmem, hlt, hlt'⟩ := of_decide_eq_true htest
  refine ⟨s, t, reachable_execute (by decide) (by simp [KillsFind, AnyCall]) hs, hready, ht,
    ⟨_, hmem, hlt, hlt'⟩, ?_⟩
  rintro ⟨t', ht', hmax⟩
  obtain rfl := Except.ok.inj (ht.symm.trans ht')
  exact absurd (hmax _ hmem) (Int.not_le.mpr hlt)

end Ucas.Sched

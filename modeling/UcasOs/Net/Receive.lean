import UcasOs.Sched.Priority

/-! The receive descriptors of the network card, and the queue of the processes that wait until the
card has filled them. `do_wait_recv_package` goes to sleep for the last descriptor; the timer
interrupt polls all the others. -/

namespace Ucas.Net
open Ucas.Lib Ucas.Sched

def pnum : Nat := 64

structure Desc where
  des0 : UInt32
  des1 : UInt32
  des2 : UInt32
  des3 : UInt32
  deriving DecidableEq, Repr

def Desc.owned (d : Desc) : Bool := d.des0 &&& 0x80000000 ≠ 0

abbrev DescTable := Fin pnum → Desc

/-- `while (pnow < PNUM - 1) { if (... & 0x80000000) return; pnow++; }`, the loop of `check_recv`
and `check_recv_block_queue`; true if it comes to its end. -/
def pollFrom (table : DescTable) (pnow : Nat) : Bool :=
  if h : pnow < pnum - 1 then
    if (table ⟨pnow, Nat.lt_of_lt_of_le h (Nat.sub_le _ _)⟩).owned then false
    else pollFrom table (pnow + 1)
  else true
  termination_by pnum - 1 - pnow

def checkRecvBlockQueue (table : DescTable) (s : Kernel) : Except Fault Kernel :=
  if (s.queues.queue .recvBlock).head ≠ none then
    if pollFrom table 0 then doUnblockOne .recvBlock s else .ok s
  else .ok s

/-- `recv_desc_table[63]`. -/
def lastDesc : Fin pnum := ⟨63, by decide⟩

def doWaitRecvPackage (table : DescTable) (s : Kernel) : Except Fault Kernel :=
  if (table lastDesc).owned then doBlock .recvBlock .user s else .ok s

theorem pollFrom_iff (table : DescTable) (pnow : Nat) :
    pollFrom table pnow = true ↔ ∀ i :
    Fin pnum, pnow ≤ i.val → i ≠ lastDesc → (table i).owned = false := by
  fun_induction pollFrom table pnow with
  | case1 pnow h howned =>
    refine iff_of_false (by simp) fun hclear => ?_
    have hlast : (⟨pnow, Nat.lt_of_lt_of_le h (Nat.sub_le _ _)⟩ : Fin pnum) ≠ lastDesc := fun heq =>
      absurd h (by rw [show pnow = 63 from congrArg Fin.val heq]; decide)
    rw [hclear _ (Nat.le_refl _) hlast] at howned
    cases howned
  | case2 pnow h hclear ih =>
    rw [ih]
    refine forall_congr' fun i => ?_
    -- only the descriptor that was just found to be clear is new
    by_cases hi : i.val = pnow
    · have heq : (table i).owned = false := by
        rw [show i = ⟨pnow, Nat.lt_of_lt_of_le h (Nat.sub_le _ _)⟩ from Fin.ext hi]
        simpa using hclear
      exact iff_of_true (fun _ _ => heq) fun _ _ => heq
    · exact imp_congr_left (by omega)
  | case3 pnow h =>
    refine iff_of_true rfl fun i hle hne => absurd (Fin.ext ?_) hne
    have hlt : i.val < 64 := i.isLt
    have hge : ¬ pnow < 63 := h
    show i.val = 63
    omega

theorem checkRecvBlockQueue_eq (table : DescTable) (s : Kernel) :
    checkRecvBlockQueue table s = Sched.checkRecvBlockQueue (pollFrom table 0) s := by
  rw [checkRecvBlockQueue, Sched.checkRecvBlockQueue]
  split_ifs with hhead hpoll hpoll
  · rfl
  · rfl
  · have hempty : queueIsEmpty .recvBlock s.queues = true := by
      rw [queueIsEmpty]
      simpa using hhead
    rw [doUnblockOne, hempty]
    rfl
  · rfl

def Wakes (table : DescTable) (s : Kernel) : Prop :=
  ∃ t p, checkRecvBlockQueue table s = .ok t ∧ p ∈ s.members .recvBlock ∧
    t.members .recvBlock = (s.members .recvBlock).erase p ∧ t.members .ready = s.members .ready ++
      [p] ∧
    t.status p = .ready

theorem wakes_iff {s : Kernel} (hs : Family s.queues s.members) (hq : s.members .recvBlock ≠ [])
    (table : DescTable) :
    Wakes table s ↔ pollFrom table 0 = true := by
  constructor
  · rintro ⟨t, p, ht, hp, hleft, -, -⟩
    by_contra hpoll
    rw [checkRecvBlockQueue_eq, Sched.checkRecvBlockQueue, if_neg hpoll] at ht
    obtain rfl := Except.ok.inj ht
    have hlen := congrArg List.length hleft
    rw [List.length_erase_of_mem hp] at hlen
    have hpos := List.length_pos_of_mem hp
    omega
  · intro hpoll
    obtain ⟨p, l, hlist⟩ := List.exists_cons_of_ne_nil hq
    obtain ⟨t, ht, hleft, hready, hstatus⟩ := doUnblockOne_picks hs hlist (by decide)
    refine ⟨t, _, ?_, hlist ▸ firstPeak_mem s.priority p l, hleft, hready, hstatus⟩
    rw [checkRecvBlockQueue_eq, Sched.checkRecvBlockQueue, if_pos hpoll]
    exact ht

/-- A process is woken exactly if the card has filled all descriptors, and then
`do_wait_recv_package` would not have to wait. -/
def WakesWhenReceived (table : DescTable) (s : Kernel) : Prop :=
  (Wakes table s ↔ ∀ i, (table i).owned = false) ∧ (Wakes table s → doWaitRecvPackage table s = .ok
    s)

theorem wakes_when_received_iff {s : Kernel} (hs : Family s.queues s.members)
    (hq : s.members .recvBlock ≠ [])
    (table : DescTable) :
    WakesWhenReceived table s ↔ (table lastDesc).owned = false ∨ ∃ i, i ≠ lastDesc ∧
    (table i).owned = true := by
  have hwakes : Wakes table s ↔ ∀ i, i ≠ lastDesc → (table i).owned = false := by
    rw [wakes_iff hs hq, pollFrom_iff]
    exact forall_congr' fun i => by simp
  constructor
  · rintro ⟨hiff, -⟩
    by_contra hnot
    push Not at hnot
    have hclear : Wakes table s := hwakes.mpr fun i hi => by simpa using hnot.2 i hi
    exact hnot.1 (hiff.mp hclear lastDesc)
  · intro h
    have hlast : Wakes table s → (table lastDesc).owned = false := by
      intro hw
      rcases h with hlast | ⟨i, hi, howned⟩
      · exact hlast
      · rw [hwakes.mp hw i hi] at howned
        cases howned
    refine ⟨⟨fun hw i => ?_, fun hall => hwakes.mpr fun i _ => hall i⟩, fun hw => ?_⟩
    · by_cases hi : i = lastDesc
      · rw [hi]
        exact hlast hw
      · exact hwakes.mp hw i hi
    · rw [doWaitRecvPackage, hlast hw]
      rfl

theorem shell_waits : ∃ s : Kernel, Reachable KillsFind s ∧ s.members .recvBlock = [shell] := by
  obtain ⟨s, hs, htest⟩ := exists_of_endsIn (t := fun s : Kernel => s.members .recvBlock = [shell])
    (r := execute 1 [.schedule, .spawn ⟨1⟩, .block .recvBlock]) (by decide +kernel)
  exact ⟨s, reachable_execute (by decide) (by simp [KillsFind, AnyCall]) hs, of_decide_eq_true
    htest⟩

theorem wakes_when_all_clear : ∃ s : Kernel, Family s.queues s.members ∧ s.members .recvBlock ≠ [] ∧
    WakesWhenReceived (fun _ => ⟨0, 0, 0, 0⟩) s := by
  obtain ⟨s, hreach, hwait⟩ := shell_waits
  have hq : s.members .recvBlock ≠ [] := by simp [hwait]
  exact ⟨s, family_of_reachable hreach, hq, (wakes_when_received_iff (family_of_reachable hreach) hq
    _).mpr (.inl (by decide))⟩

theorem woken_before_last :
    ∃ (table : DescTable) (s : Kernel), Reachable KillsFind s ∧ s.members .recvBlock = [shell] ∧
    (table lastDesc).owned = true ∧ Wakes table s ∧ ¬ WakesWhenReceived table s := by
  obtain ⟨s, hreach, hwait⟩ := shell_waits
  let table : DescTable := fun i => ⟨if i = lastDesc then 0x80000000 else 0, 0, 0, 0⟩
  have howned : (table lastDesc).owned = true := by decide
  have hwakes : Wakes table s := by
    rw [wakes_iff (family_of_reachable hreach) (by simp [hwait]), pollFrom_iff]
    intro i _ hi
    simp [table, Desc.owned, hi]
  refine ⟨table, s, hreach, hwait, howned, hwakes, fun h => ?_⟩
  rw [h.1.mp hwakes lastDesc] at howned
  cases howned

end Ucas.Net

import UcasOs.Mailbox.Tokens

/-! A mailbox is a bounded stack of messages: in every interleaving each step stores a message on
top, takes the top message, or leaves the messages alone. So no message is lost, but they may come
out in another order. -/

namespace Ucas.Mailbox
open Ucas.Lib Ucas.Sched Relation

variable {len : Nat} {b : MboxRef} {c c' : Conf len} {e : Event len} {op : Op} {p : PcbRef}

def Pc.raised : Pc len → Bool
  | .sendCopy _ | .recvMove _ => true
  | _ => false

def Conf.top (c : Conf len) : Nat :=
  if ∃ p, (c.pc p).raised = true then (c.ptr + (maxMboxLength - 1)) % maxMboxLength else c.ptr

def Conf.slot (c : Conf len) (i : Nat) : Buffer len :=
  (c.msg ((c.top + (maxMboxLength - i)) % maxMboxLength)).slice 0 len

/-- How many messages receivers can still take: the value of `recv` and the tokens that were taken
from it or will be added to it. -/
def Conf.held (b : MboxRef) (c : Conf len) : Nat := (supply b.recv Pc.hasMessage c).toNat

def Conf.inBox (b : MboxRef) (c : Conf len) : List (Buffer len) :=
  (List.range (c.held b)).map c.slot

inductive BoxStep (b : MboxRef) (c : Conf len) (e : Event len) (c' : Conf len) : Prop
  | same (hbox : c'.inBox b = c.inBox b) (hstored : c'.stored = c.stored) (hreceived : c'.received =
    c.received)
  | push (m : Buffer len) (hbox : c'.inBox b = m :: c.inBox b) (hstored : c'.stored = c.stored ++
    [m])
      (hreceived : c'.received = c.received)
  | pop (m : Buffer len) (hnext : e = .next) (hpc : c.pc c.current = .recvCopy)
    (hbox : c.inBox b = m :: c'.inBox b)
      (hstored : c'.stored = c.stored) (hreceived : c'.received = c.received ++ [m])

section Box

theorem token_nonneg {x : Nat} {w : Pc len → Int} (hw : ∀ k, 0 ≤ w k) (p : PcbRef) :
    0 ≤ token x w c p := by
  rw [token]
  split
  · exact le_refl 0
  · exact hw _

theorem Side.token_le_supply {x : Nat} {w : Pc len → Int} (h : Side x w c) (hw : ∀ k, 0 ≤ w k)
    (p : PcbRef) :
    token x w c p ≤ supply x w c := by
  have hsum : token x w c p ≤ ∑ r, token x w c r :=
    Finset.single_le_sum (fun r _ => token_nonneg hw r) (Finset.mem_univ p)
  have := h.nonneg
  rw [supply]
  omega

theorem Balanced.held_add (h : Balanced b c) : c.held b + c.received.length = c.stored.length := by
  have hfilled := h.filled
  have hle := h.message.token_le_supply Pc.hasMessage_nonneg c.current
  have hnonneg := token_nonneg (x := b.recv) (c := c) Pc.hasMessage_nonneg c.current
  rw [Conf.held]
  omega

theorem Balanced.held_le (h : Balanced b c) (hwf : WellFormed c.kernel) :
    (c.held b : Int) + (c.pc c.current).hasSpace ≤ maxMboxLength := by
  have hheld := h.held_add
  have hfree := h.free
  have hle := h.space.token_le_supply Pc.hasSpace_nonneg c.current
  rw [token_of_not_mem (p := c.current) (hwf.current_not_mem _)] at hle
  simp only [maxMboxLength] at *
  omega

theorem Balanced.le_held (h : Balanced b c) (hwf : WellFormed c.kernel) :
    (c.pc c.current).hasMessage ≤ c.held b := by
  have hle := h.message.token_le_supply Pc.hasMessage_nonneg c.current
  rw [token_of_not_mem (p := c.current) (hwf.current_not_mem _)] at hle
  rw [Conf.held]
  omega

theorem inBox_congr (hmsg : c'.msg = c.msg) (htop : c'.top = c.top) (hheld : c'.held b = c.held b) :
    c'.inBox b = c.inBox b := by
  simp only [Conf.inBox, hheld]
  refine List.map_congr_left fun i _ => ?_
  simp only [Conf.slot, hmsg, htop]

theorem top_of_same {k : Pc len} (hpc : c'.pc = Function.update c.pc c.current k)
    (hk : k.raised = (c.pc c.current).raised) (hptr : c'.ptr = c.ptr) : c'.top = c.top := by
  have hraised : ∀ p, (c'.pc p).raised = (c.pc p).raised := by
    intro p
    rw [hpc]
    by_cases hp : p = c.current
    · rw [hp, Function.update_self, hk]
    · rw [Function.update_of_ne hp]
  simp only [Conf.top, hraised, hptr]

theorem Pc.Critical.of_raised {k : Pc len} (h : k.raised = true) : k.Critical := by
  cases k <;> trivial

theorem Guarded.top (h : Guarded b c) (hc : (c.pc c.current).Critical) :
    c.top = if (c.pc c.current).raised then (c.ptr + (maxMboxLength - 1)) % maxMboxLength else
    c.ptr := by
  have hiff : (∃ p, (c.pc p).raised = true) ↔ (c.pc c.current).raised = true := by
    refine ⟨?_, fun hr => ⟨_, hr⟩⟩
    rintro ⟨p, hp⟩
    rwa [h.unique hc (.of_raised hp)]
  simp only [Conf.top, hiff]

theorem Guarded.top_goto {k : Pc len} (h : Guarded b (c.goto k)) (hk : k.Critical) :
    (c.goto k).top = if k.raised then (c.ptr + (maxMboxLength - 1)) % maxMboxLength else c.ptr := by
  have hpc : (c.goto k).pc (c.goto k).current = k := Function.update_self ..
  have htop := h.top (by rw [hpc]; exact hk)
  rwa [hpc] at htop

theorem held_of_lengths (h : Balanced b c) (h' : Balanced b c') (hstored : c'.stored = c.stored)
    (hreceived : c'.received = c.received) : c'.held b = c.held b := by
  have h₁ := h.held_add
  have h₂ := h'.held_add
  rw [hstored, hreceived] at h₂
  omega

theorem raised_afterAcquire (b : MboxRef) (c : Conf len) (op : Op) (s' : Kernel) :
    (afterAcquire b c op s').raised = (c.pc c.current).raised :=
  afterAcquire_congr (fun k => by cases k <;> rfl) b c op s'

theorem inBox_of_held {n : Nat} (h : c.held b = n + 1) :
    c.inBox b = c.slot 0 :: (List.range n).map fun i => c.slot (i + 1) := by
  rw [Conf.inBox, h, List.range_succ_eq_map, List.map_cons, List.map_map]
  rfl

theorem inBox_push {m : Buffer len} (hlen : len ≤ maxMessageLength) (hptr : c.ptr < maxMboxLength)
    (htop : c.top = (c.ptr + (maxMboxLength - 1)) % maxMboxLength) (htop' : c'.top = c.ptr)
    (hmsg : c'.msg = Function.update c.msg c.ptr ((c.msg c.ptr).blit 0 m))
    (hheld : c'.held b = c.held b + 1) (hfree : c.held b < maxMboxLength) :
    c'.inBox b = m :: c.inBox b := by
  simp only [maxMboxLength] at hptr hfree htop
  rw [inBox_of_held hheld, Conf.inBox]
  congr 1
  · have hindex : (c.ptr + (32 - 0)) % 32 = c.ptr := by omega
    rw [Conf.slot, htop', hmsg, show maxMboxLength = 32 from rfl, hindex, Function.update_self]
    exact Buffer.slice_blit _ _ (by omega)
  · refine List.map_congr_left fun i hi => ?_
    have hi := List.mem_range.mp hi
    have hindex : (c.ptr + (32 - (i + 1))) % 32 = (c.top + (32 - i)) % 32 := by omega
    have hne : (c.top + (32 - i)) % 32 ≠ c.ptr := by omega
    rw [Conf.slot, Conf.slot, htop', hmsg, show maxMboxLength = 32 from rfl, hindex,
      Function.update_of_ne hne]

theorem inBox_pop (hptr : c.ptr < maxMboxLength) (htop : c.top = c.ptr)
    (htop' : c'.top = (c.ptr + (maxMboxLength - 1)) % maxMboxLength) (hmsg : c'.msg = c.msg)
    (hheld : c.held b = c'.held b + 1) (hle : c.held b ≤ maxMboxLength) :
    c.inBox b = (c.msg c.ptr).slice 0 len :: c'.inBox b := by
  simp only [maxMboxLength] at hptr hle htop'
  rw [inBox_of_held hheld, Conf.inBox]
  congr 1
  · have hindex : (c.ptr + (32 - 0)) % 32 = c.ptr := by omega
    rw [Conf.slot, htop, show maxMboxLength = 32 from rfl, hindex]
  · refine List.map_congr_left fun i hi => ?_
    have hi := List.mem_range.mp hi
    have hindex : (c.ptr + (32 - (i + 1))) % 32 = (c'.top + (32 - i)) % 32 := by omega
    rw [Conf.slot, Conf.slot, htop, hmsg, show maxMboxLength = 32 from rfl, hindex]

end Box

theorem boxStep_effect (hwf : WellFormed c.kernel) (hg : Guarded b c) (hb : Balanced b c)
    (hptr : c.ptr < maxMboxLength) (hlen : len ≤ maxMessageLength) (he : Effect b c e c') :
    BoxStep b c e c' := by
  have hg' := guarded_effect hwf hg he
  have hb' := balanced_effect hwf hb he
  have hspace := hb.held_le hwf
  have hmessage := hb.le_held hwf
  have hheld := hb.held_add
  have hheld' := hb'.held_add
  cases he with
  | quiet op hop hs =>
    exact .same (inBox_congr rfl (top_of_same rfl (raised_afterAcquire ..) rfl)
      (held_of_lengths hb hb' rfl rfl)) rfl rfl
  | send m hpc hs =>
    exact .same (inBox_congr rfl (top_of_same rfl (by rw [hpc]; rfl) rfl) (held_of_lengths hb hb'
      rfl rfl)) rfl rfl
  | recv hpc hs =>
    exact .same (inBox_congr rfl (top_of_same rfl (by rw [hpc]; rfl) rfl) (held_of_lengths hb hb'
      rfl rfl)) rfl rfl
  | sendMove m hpc =>
    have htop : c.top = c.ptr := by simpa [hpc, Pc.raised] using hg.top (by rw [hpc]; trivial)
    refine .same (inBox_congr rfl ((hg'.top_goto trivial).trans ?_) (held_of_lengths hb hb' rfl
      rfl)) rfl rfl
    rw [htop]
    simp only [maxMboxLength, Pc.raised, if_true] at hptr ⊢
    omega
  | sendCopy m hpc =>
    have htop : c.top = (c.ptr + (maxMboxLength - 1)) % maxMboxLength := by
      simpa [hpc, Pc.raised] using hg.top (by rw [hpc]; trivial)
    have htop' := hg'.top_goto trivial
    simp only [hpc, Pc.hasSpace] at hspace
    simp only [Conf.goto, List.length_append, List.length_singleton] at hheld'
    exact .push m (inBox_push hlen hptr htop htop' rfl (by simp only [Conf.goto]; omega) (by omega))
      rfl rfl
  | sendRelease hpc hs =>
    exact .same (inBox_congr rfl (top_of_same rfl (by rw [hpc]; rfl) rfl) (held_of_lengths hb hb'
      rfl rfl)) rfl rfl
  | sendUp hpc hs =>
    exact .same (inBox_congr rfl (top_of_same rfl (by rw [hpc]; rfl) rfl) (held_of_lengths hb hb'
      rfl rfl)) rfl rfl
  | recvCopy hpc =>
    have htop : c.top = c.ptr := by simpa [hpc, Pc.raised] using hg.top (by rw [hpc]; trivial)
    have htop' := hg'.top_goto trivial
    simp only [hpc, Pc.hasSpace, Pc.hasMessage] at hspace hmessage
    simp only [Conf.goto, List.length_append, List.length_singleton] at hheld'
    exact .pop _ rfl hpc (inBox_pop hptr htop htop' rfl (by simp only [Conf.goto]; omega)
      (by omega)) rfl rfl
  | recvMove m hpc =>
    have htop : c.top = (c.ptr + (maxMboxLength - 1)) % maxMboxLength := by
      simpa [hpc, Pc.raised] using hg.top (by rw [hpc]; trivial)
    have htop' := hg'.top_goto trivial
    exact .same (inBox_congr rfl (htop'.trans htop.symm) (held_of_lengths hb hb' rfl rfl)) rfl rfl
  | recvRelease m hpc hs =>
    exact .same (inBox_congr rfl (top_of_same rfl (by rw [hpc]; rfl) rfl) (held_of_lengths hb hb'
      rfl rfl)) rfl rfl
  | recvUp m hpc hs =>
    exact .same (inBox_congr rfl (top_of_same rfl (by rw [hpc]; rfl) rfl) (held_of_lengths hb hb'
      rfl rfl)) rfl rfl

structure Sound (b : MboxRef) (c : Conf len) : Prop where
  wellFormed : WellFormed c.kernel
  guarded : Guarded b c
  balanced : Balanced b c
  ptr : c.ptr < maxMboxLength

section Sound

theorem ptr_effect (hptr : c.ptr < maxMboxLength) (he : Effect b c e c') :
    c'.ptr < maxMboxLength := by
  cases he with
  | sendMove m hpc => exact Nat.mod_lt _ (by decide)
  | recvMove m hpc => exact Nat.mod_lt _ (by decide)
  | _ => exact hptr

theorem sound_effect (h : Sound b c) (he : Effect b c e c') : Sound b c' :=
  ⟨wellFormed_effect h.wellFormed he, guarded_effect h.wellFormed h.guarded he,
    balanced_effect h.wellFormed h.balanced he, ptr_effect h.ptr he⟩

theorem mboxOpen_ok {s₁ s₂ : Kernel} (hwf : WellFormed s₁) (h : mboxOpen b s₁ = .ok s₂) :
    WellFormed s₂ ∧ Excluded b.lock ⟨s₂, ∅⟩ ∧
      s₂.semValue b.send = maxMboxLength ∧ s₂.members (.semaphore b.send) = [] ∧
      s₂.semValue b.recv = 0 ∧ s₂.members (.semaphore b.recv) = [] := by
  obtain ⟨s₃, h₃, h⟩ := exists_of_bind_ok h
  obtain ⟨s₄, h₄, h⟩ := exists_of_bind_ok h
  have hcall : ∀ {s : Kernel} {op}, AnyCall s op → (∀ n, op ≠ .kill n) → KillsFind s op :=
      fun hany hkill =>
    ⟨hany, fun n e => absurd e (hkill n)⟩
  have hwf₂ := ((hwf.step (hcall (by trivial) (by simp)) h₃).step (hcall (by trivial) (by simp))
    h₄).step
    (hcall (by trivial) (by simp)) h
  cases (step_exec (by simp) h₃).2
  cases (step_exec (by simp) h₄).2
  cases (step_exec (by simp) h).2
  have hne : b.recv ≠ b.send := b.distinct.symm
  refine ⟨hwf₂, ⟨by simp, by simp [doSemaphoreInit, doMutexLockInit], fun _ => ?_⟩, ?_, ?_, ?_,
    members_queueInit rfl⟩
  · exact (members_queueInit_of_ne (by simp) rfl).trans
      ((members_queueInit_of_ne (by simp) rfl).trans (members_queueInit (s := s₁) rfl))
  · simp [doSemaphoreInit, b.distinct]
  · exact (members_queueInit_of_ne (by simpa using b.distinct) rfl).trans
      (members_queueInit (s := doMutexLockInit b.lock s₁) rfl)
  · simp [doSemaphoreInit]

theorem sound_fresh {s₁ s₂ : Kernel} (hwf : WellFormed s₁) (h : mboxOpen b s₁ = .ok s₂)
    (msg : Nat → Buffer maxMessageLength) : Sound b (fresh s₂ msg : Conf len) := by
  obtain ⟨hwf₂, hex, hsend, hsendNil, hrecv, hrecvNil⟩ := mboxOpen_ok hwf h
  have htoken : ∀ {x} {w : Pc len → Int}, w .out = 0 → ∑ p, token x w (fresh s₂ msg) p = 0 := by
    intro x w hw
    refine Finset.sum_eq_zero fun p _ => ?_
    rw [token]
    split
    · rfl
    · exact hw
  refine ⟨hwf₂, ⟨hex, fun p hp => hp.elim⟩, ⟨⟨?_, ?_⟩, ⟨?_, ?_⟩, ?_, ?_⟩,
    (by decide : 0 < maxMboxLength)⟩
  · simp [fresh, hsend]
  · simp [fresh, hsendNil]
  · simp [fresh, hrecv]
  · simp [fresh, hrecvNil]
  · rw [supply, htoken rfl]
    simp [fresh, hsend]
  · rw [supply, htoken rfl]
    simp [fresh, hrecv]

theorem fresh_inBox {s₁ s₂ : Kernel} (hwf : WellFormed s₁) (h : mboxOpen b s₁ = .ok s₂)
    (msg : Nat → Buffer maxMessageLength) : (fresh s₂ msg : Conf len).inBox b = [] := by
  have hs : Sound b (fresh s₂ msg : Conf len) := sound_fresh hwf h msg
  have hheld := hs.balanced.held_add
  have hzero : (fresh s₂ msg : Conf len).held b = 0 := by simpa [fresh] using hheld
  simp [Conf.inBox, hzero]

theorem mbox_invariant {P : Conf len → Event len → Prop} {I : Conf len → Prop}
    (hlen : len ≤ maxMessageLength)
    (h : MboxReachable b P c) (h₀ : ∀ s msg, (fresh s msg : Conf len).inBox b = [] →
    I (fresh s msg))
    (hstep : ∀ c e c', I c → P c e → Effect b c e c' → BoxStep b c e c' → I c') :
    Sound b c ∧ I c := by
  obtain ⟨s₁, s₂, msg, hreach, hopen, hrun⟩ := h
  have hwf : WellFormed s₁ := reachable_killsFind hreach
  refine invariant_of_path (I := fun c => Sound b c ∧ I c) ?_
    ⟨sound_fresh hwf hopen msg, h₀ s₂ msg (fresh_inBox hwf hopen msg)⟩ hrun
  rintro c c' ⟨hs, hI⟩ ⟨e, ha, hP, hrun⟩
  have he := effect_of_step ha hrun
  exact ⟨sound_effect hs he, hstep c e c' hI hP he
    (boxStep_effect hs.wellFormed hs.guarded hs.balanced hs.ptr hlen he)⟩

end Sound

theorem perm_boxStep (h : c.stored.Perm (c.received ++ c.inBox b)) (hs : BoxStep b c e c') :
    c'.stored.Perm (c'.received ++ c'.inBox b) := by
  cases hs with
  | same hbox hst hre => rwa [hbox, hst, hre]
  | push m hbox hst hre =>
    rw [hbox, hst, hre]
    exact (List.perm_append_singleton m c.stored).trans ((h.cons m).trans List.perm_middle.symm)
  | pop m _ _ hbox hst hre => rwa [hst, hre, List.append_assoc, List.singleton_append, ← hbox]

/-- In every interleaving the messages that were stored are those that were received and those that
are still in the box, which never holds more than `maxMboxLength`. -/
theorem mailbox_conserves (hlen : len ≤ maxMessageLength)
    (h : MboxReachable b (fun _ _ => True) c) :
    c.stored.Perm (c.received ++ c.inBox b) ∧ (c.inBox b).length ≤ maxMboxLength := by
  obtain ⟨hs, hperm⟩ := mbox_invariant (I := fun c => c.stored.Perm (c.received ++ c.inBox b)) hlen
    h
    (fun s msg hnil => by rw [hnil]; exact .refl _) fun c _ c' hI _ _ hbox => perm_boxStep hI hbox
  have hle := hs.balanced.held_le hs.wellFormed
  have hspace := Pc.hasSpace_nonneg (c.pc c.current)
  refine ⟨hperm, ?_⟩
  rw [Conf.inBox, List.length_map, List.length_range]
  omega

section Runs

def oneByte (v : UInt8) : Buffer 1 := Buffer.ofFn fun _ => v

def sendEvents (v : UInt8) : List (Event 1) :=
  [.send (oneByte v), .next, .next, .next, .next, .next]

def recvEvents : List (Event 1) := [.recv, .next, .next, .next, .next, .next]

def box : MboxRef := ⟨2, 0, 1, by decide⟩

def onlyTicks : Event 1 → Bool
  | .other op => op = .tick false
  | _ => true

theorem mailbox_conserves_two_messages :
    ∃ c : Conf 1, MboxReachable box (fun _ _ => True) c ∧ c.stored.length = 2 ∧
    c.received.length = 1 ∧
      c.stored.Perm (c.received ++ c.inBox box) := by
  obtain ⟨c, hc, htest⟩ := exists_of_endsIn
    (t := fun c : Conf 1 => c.stored.length = 2 ∧ c.received.length = 1)
    (r := mboxRun box (fun _ => onlyTicks)
      [.schedule, .spawn ⟨1⟩] (sendEvents 1 ++ sendEvents 2 ++ [.other (.tick false), .recv, .next,
        .next]))
    (by decide +kernel)
  have hreach : MboxReachable box (fun _ _ => True) c := by
    refine mboxReachable_of_run (by simp [KillsFind, AnyCall]) (fun c e he => ⟨?_, trivial⟩) hc
    cases e with
    | other op =>
      cases of_decide_eq_true he
      exact ⟨trivial, .inr (.inr ⟨false, rfl⟩)⟩
    | _ => trivial
  exact ⟨c, hreach, (of_decide_eq_true htest).1, (of_decide_eq_true htest).2,
    (mailbox_conserves (by decide) hreach).1⟩

end Runs

def OneEach (producer consumer : PcbRef) (c : Conf len) : Event len → Prop
  | .send _ => c.current = producer
  | .recv => c.current = consumer
  | _ => True

/-- A receiver copies a message out of the box only while all messages in it are equal, so that it
does not matter that it takes the newest one. -/
def Alike (b : MboxRef) (c : Conf len) (e : Event len) : Prop :=
  e = .next → c.pc c.current = .recvCopy → ∀ m ∈ c.inBox b, ∀ m' ∈ c.inBox b, m = m'

def Pc.pending : Pc len → List (Buffer len)
  | .sendAcquire m | .sendMove m | .sendCopy m => [m]
  | _ => []

structure Producing (producer : PcbRef) (c : Conf len) : Prop where
  sent : c.sent = c.stored ++ (c.pc producer).pending
  others : ∀ p, p ≠ producer → (c.pc p).pending = []

section Order
variable {producer consumer : PcbRef} {k : Pc len}

theorem Producing.keep (h : Producing producer c) (hpc : c'.pc = Function.update c.pc c.current k)
    (hk : k.pending = (c.pc c.current).pending) (hsent : c'.sent = c.sent)
    (hstored : c'.stored = c.stored) :
    Producing producer c' := by
  have hsame : ∀ p, (c'.pc p).pending = (c.pc p).pending := by
    intro p
    rw [hpc]
    by_cases hp : p = c.current
    · rw [hp, Function.update_self, hk]
    · rw [Function.update_of_ne hp]
  exact ⟨by rw [hsent, hstored, hsame, h.sent], fun p hp => (hsame p).trans (h.others p hp)⟩

theorem producing_effect (h : Producing producer c) (hone : OneEach producer consumer c e)
    (he : Effect b c e c') : Producing producer c' := by
  cases he with
  | quiet op hop hs =>
    refine h.keep rfl ?_ rfl rfl
    exact afterAcquire_congr (fun k => by cases k <;> rfl) b c op _
  | send m hpc hs =>
    have hcur : c.current = producer := hone
    subst hcur
    refine ⟨?_, fun p hp => ?_⟩
    · have hsent := h.sent
      simp only [hpc, Pc.pending, List.append_nil] at hsent
      simp [Conf.called, Conf.current, Pc.pending, hsent]
    · exact (congrArg Pc.pending (Function.update_of_ne hp ..)).trans (h.others p hp)
  | sendCopy m hpc =>
    have hcur : c.current = producer := by
      by_contra hne
      have := h.others _ hne
      simp [hpc, Pc.pending] at this
    subst hcur
    refine ⟨?_, fun p hp => ?_⟩
    · have hsent := h.sent
      simp only [hpc, Pc.pending] at hsent
      simp [Conf.goto, Conf.current, Pc.pending, hsent]
    · exact (congrArg Pc.pending (Function.update_of_ne hp ..)).trans (h.others p hp)
  | recv hpc hs => exact h.keep rfl (by rw [hpc]; rfl) rfl rfl
  | sendMove m hpc => exact h.keep rfl (by rw [hpc]; rfl) rfl rfl
  | sendRelease hpc hs => exact h.keep rfl (by rw [hpc]; rfl) rfl rfl
  | sendUp hpc hs => exact h.keep rfl (by rw [hpc]; rfl) rfl rfl
  | recvCopy hpc => exact h.keep rfl (by rw [hpc]; rfl) rfl rfl
  | recvMove m hpc => exact h.keep rfl (by rw [hpc]; rfl) rfl rfl
  | recvRelease m hpc hs => exact h.keep rfl (by rw [hpc]; rfl) rfl rfl
  | recvUp m hpc hs => exact h.keep rfl (by rw [hpc]; rfl) rfl rfl

theorem reverse_cons_of_alike {α : Type} {m : α} {l : List α}
    (h : ∀ x ∈ m :: l, ∀ y ∈ m :: l, x = y) :
    (m :: l).reverse = m :: l.reverse := by
  have hrep : l = List.replicate l.length m :=
    List.eq_replicate_iff.mpr ⟨rfl, fun x hx => h x (List.mem_cons_of_mem _ hx) m
      List.mem_cons_self⟩
  rw [hrep, ← List.replicate_succ, List.reverse_replicate, List.reverse_replicate,
    List.replicate_succ]

theorem order_boxStep (h : c.stored = c.received ++ (c.inBox b).reverse) (halike : Alike b c e)
    (hs : BoxStep b c e c') : c'.stored = c'.received ++ (c'.inBox b).reverse := by
  cases hs with
  | same hbox hst hre => rwa [hbox, hst, hre]
  | push m hbox hst hre => rw [hbox, hst, hre, h, List.reverse_cons, List.append_assoc]
  | pop m hnext hpc hbox hst hre =>
    have hrev := reverse_cons_of_alike (hbox ▸ halike hnext hpc)
    rw [hst, hre, h, hbox, hrev, List.append_assoc, List.singleton_append]

/-- In every run of one producer and one consumer in which the consumer copies only while all
messages in the box are equal, it receives the messages in the order in which they were sent. -/
theorem mailbox_order (hlen : len ≤ maxMessageLength)
    (h : MboxReachable b (fun c e => OneEach producer consumer c e ∧ Alike b c e) c) :
    c.received.IsPrefix c.sent := by
  obtain ⟨-, hprod, horder⟩ := mbox_invariant
    (I := fun c => Producing producer c ∧ c.stored = c.received ++ (c.inBox b).reverse) hlen h
    (fun s msg hnil => ⟨⟨rfl, fun _ _ => rfl⟩, by rw [hnil]; rfl⟩)
    fun c e c' hI hP he hbox => ⟨producing_effect hI.1 hP.1 he, order_boxStep hI.2 hP.2 hbox⟩
  rw [hprod.sent, horder, List.append_assoc]
  exact List.prefix_append ..

def shellSends (c : Conf 1) : Event 1 → Bool
  | .send _ => c.current = shell
  | .recv => c.current = .task ⟨0, by decide⟩
  | .next => true
  | .other op => op = .tick false

theorem shellSends_allowed {c : Conf 1} {e : Event 1} (h : shellSends c e = true) :
    Allowed box c e ∧ OneEach shell (.task ⟨0, by decide⟩) c e := by
  cases e with
  | send m =>
    have hcur : c.current = shell := of_decide_eq_true h
    exact ⟨trivial, hcur⟩
  | recv =>
    have hcur : c.current = .task ⟨0, by decide⟩ := of_decide_eq_true h
    exact ⟨trivial, hcur⟩
  | next => exact ⟨trivial, trivial⟩
  | other op =>
    cases of_decide_eq_true h
    exact ⟨⟨trivial, .inr (.inr ⟨false, rfl⟩)⟩, trivial⟩

theorem mailbox_order_two_messages :
    ∃ c : Conf 1, MboxReachable box
        (fun c e => OneEach shell (.task ⟨0, by decide⟩) c e ∧ Alike box c e) c ∧
      c.received.map (fun m => m.get 0) = [1, 2] ∧ c.received.IsPrefix c.sent := by
  let tick : Event 1 := .other (.tick false)
  obtain ⟨c, hc, htest⟩ := exists_of_endsIn
    (t := fun c : Conf 1 => c.received.map (fun m => m.get 0) = [1, 2])
    (r := mboxRun box (fun c e => shellSends c e && decide ((c.inBox box).length ≤ 1))
      [.schedule, .spawn ⟨1⟩] (sendEvents 1 ++ [tick] ++ recvEvents ++ [tick, tick] ++
        sendEvents 2 ++ [tick, tick] ++ recvEvents))
    (by decide +kernel)
  have hreach : MboxReachable box
      (fun c e => OneEach shell (.task ⟨0, by decide⟩) c e ∧ Alike box c e) c := by
    refine mboxReachable_of_run (by simp [KillsFind, AnyCall]) (fun c e he => ?_) hc
    obtain ⟨hsend, hlen⟩ := Bool.and_eq_true_iff.mp he
    refine ⟨(shellSends_allowed hsend).1, (shellSends_allowed hsend).2, fun _ _ m hm m' hm' => ?_⟩
    have hlen := of_decide_eq_true hlen
    cases hbox : c.inBox box with
    | nil => simp [hbox] at hm
    | cons x l =>
      simp only [hbox, List.length_cons] at hlen hm hm'
      have hl : l = [] := List.eq_nil_of_length_eq_zero (by omega)
      simp only [hl, List.mem_singleton] at hm hm'
      rw [hm, hm']
  exact ⟨c, hreach, of_decide_eq_true htest, mailbox_order (by decide) hreach⟩

theorem mailbox_reverses :
    ∃ c : Conf 1, MboxReachable box (OneEach shell (.task ⟨0, by decide⟩)) c ∧
      c.sent.map (fun m => m.get 0) = [1, 2] ∧ c.received.map (fun m => m.get 0) = [2] ∧
      ¬ c.received.IsPrefix c.sent := by
  obtain ⟨c, hc, htest⟩ := exists_of_endsIn
    (t := fun c : Conf 1 => c.sent.map (fun m => m.get 0) = [1, 2] ∧
      c.received.map (fun m => m.get 0) = [2])
    (r := mboxRun box shellSends [.schedule, .spawn ⟨1⟩]
      (sendEvents 1 ++ sendEvents 2 ++ [.other (.tick false), .recv, .next, .next])) (by
        decide +kernel)
  obtain ⟨hsent, hreceived⟩ := of_decide_eq_true htest
  refine ⟨c, mboxReachable_of_run (by simp [KillsFind, AnyCall]) (fun c e he => shellSends_allowed
    he) hc, hsent,
    hreceived, fun hpre => ?_⟩
  have := hpre.map fun m => m.get 0
  rw [hsent, hreceived] at this
  exact absurd this (by decide)

end Order

end Ucas.Mailbox

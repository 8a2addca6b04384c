import UcasOs.Mailbox.Steps

/-! The tokens of the two semaphores of a mailbox. A token is in the value of its semaphore or with
a process that has taken it and not yet passed it on; steps move tokens and the number of messages
accounts for all of them. -/

namespace Ucas.Mailbox
open Ucas.Lib Ucas.Sched Relation

variable {len : Nat} {b : MboxRef} {c c' : Conf len} {e : Event len} {op : Op} {s' : Kernel}
  {p : PcbRef}

section Tokens
variable {x : Nat} {w : Pc len → Int} {k : Pc len}

theorem sum_eq_add {f g : PcbRef → Int} (p : PcbRef) (h : ∀ r, r ≠ p → g r = f r) :
    ∑ r, g r = ∑ r, f r + (g p - f p) := by
  have hf := Finset.add_sum_erase Finset.univ f (Finset.mem_univ p)
  have hg := Finset.add_sum_erase Finset.univ g (Finset.mem_univ p)
  have hrest : ∑ r ∈ Finset.univ.erase p, g r = ∑ r ∈ Finset.univ.erase p, f r :=
    Finset.sum_congr rfl fun r hr => h r (Finset.ne_of_mem_erase hr)
  omega

def token (x : Nat) (w : Pc len → Int) (c : Conf len) (p : PcbRef) : Int :=
  if p ∈ c.kernel.members (.semaphore x) then 0 else w (c.pc p)

theorem token_of_mem (hp : p ∈ c.kernel.members (.semaphore x)) : token x w c p = 0 := if_pos hp

theorem token_of_not_mem (hp : p ∉ c.kernel.members (.semaphore x)) : token x w c p = w (c.pc p) :=
  if_neg hp

def supply (x : Nat) (w : Pc len → Int) (c : Conf len) : Int :=
  c.kernel.semValue x + ∑ p, token x w c p

structure Side (x : Nat) (w : Pc len → Int) (c : Conf len) : Prop where
  nonneg : 0 ≤ c.kernel.semValue x
  waiters : ∀ p ∈ c.kernel.members (.semaphore x), w (c.pc p) = 1

theorem Side.keep (h : Side x w c) (hwf : WellFormed c.kernel)
    (hpc : c'.pc = Function.update c.pc c.current k)
    (hval : c'.kernel.semValue x = c.kernel.semValue x)
    (hmem : c'.kernel.members (.semaphore x) = c.kernel.members (.semaphore x)) :
    Side x w c' ∧ supply x w c' = supply x w c + (w k - w (c.pc c.current)) := by
  have hcur : c.current ∉ c.kernel.members (.semaphore x) := hwf.current_not_mem _
  refine ⟨⟨hval ▸ h.nonneg, fun p hp => ?_⟩, ?_⟩
  · have hne : p ≠ c.current := by
      rintro rfl
      exact hcur (hmem ▸ hp)
    rw [hpc, Function.update_of_ne hne]
    exact h.waiters p (hmem ▸ hp)
  · have hsum := sum_eq_add (f := token x w c) (g := token x w c') c.current fun r hr => by
      simp only [token, hmem, hpc, Function.update_of_ne hr]
    have hnew : token x w c' c.current = w k := by
      rw [token_of_not_mem (hmem ▸ hcur), hpc, Function.update_self]
    rw [supply, hsum, hval, supply, hnew, token_of_not_mem hcur]
    omega

theorem Side.down (h : Side x w c) (hwf : WellFormed c.kernel)
    (hs : step (.down x) c.kernel = .ok c'.kernel)
    (hpc : c'.pc = Function.update c.pc c.current k) (hw : w (c.pc c.current) = 0) (hk : w k = 1) :
    Side x w c' ∧ supply x w c' = supply x w c := by
  have hcur : c.current ∉ c.kernel.members (.semaphore x) := hwf.current_not_mem _
  rcases down_step hwf hs with ⟨hzero, hval, hmem⟩ | ⟨hne, hval, hmem⟩
  · refine ⟨⟨hval.ge, fun p hp => ?_⟩, ?_⟩
    · by_cases hp' : p = c.current
      · rw [hpc, hp', Function.update_self, hk]
      · rw [hpc, Function.update_of_ne hp']
        refine h.waiters p ?_
        rw [hmem, List.mem_append, List.mem_singleton] at hp
        exact hp.resolve_right hp'
    · have hsum := sum_eq_add (f := token x w c) (g := token x w c') c.current fun r hr => by
        have hr' : r ≠ c.kernel.currentRunning := hr
        simp only [token, hmem, hpc, Function.update_of_ne hr, List.mem_append, List.mem_singleton,
          hr', or_false]
      have hcur' : c.current ∈ c'.kernel.members (.semaphore x) := by simp [hmem, Conf.current]
      rw [supply, hsum, hval, supply, hzero, token_of_mem hcur', token_of_not_mem hcur, hw]
      omega
  · refine ⟨⟨?_, fun p hp => ?_⟩, ?_⟩
    · have := h.nonneg
      omega
    · have hp' : p ≠ c.current := by
        rintro rfl
        exact hcur (hmem ▸ hp)
      rw [hpc, Function.update_of_ne hp']
      exact h.waiters p (hmem ▸ hp)
    · have hsum := sum_eq_add (f := token x w c) (g := token x w c') c.current fun r hr => by
        simp only [token, hmem, hpc, Function.update_of_ne hr]
      have hnew : token x w c' c.current = 1 := by
        rw [token_of_not_mem (hmem ▸ hcur), hpc, Function.update_self, hk]
      rw [supply, hsum, hval, supply, hnew, token_of_not_mem hcur, hw]
      omega

theorem Side.up (h : Side x w c) (hwf : WellFormed c.kernel)
    (hs : step (.up x) c.kernel = .ok c'.kernel)
    (hpc : c'.pc = Function.update c.pc c.current k) (hw : w (c.pc c.current) = 1) (hk : w k = 0) :
    Side x w c' ∧ supply x w c' = supply x w c := by
  have hcur : c.current ∉ c.kernel.members (.semaphore x) := hwf.current_not_mem _
  rcases up_step hwf hs with ⟨hnil, hval, hnil'⟩ | ⟨p, l, hl, hval, hread⟩
  · refine ⟨⟨?_, by simp [hnil']⟩, ?_⟩
    · have := h.nonneg
      omega
    · have hsum := sum_eq_add (f := token x w c) (g := token x w c') c.current fun r hr => by
        simp only [token, hnil, hnil', hpc, Function.update_of_ne hr]
      have hnew : token x w c' c.current = 0 := by
        rw [token_of_not_mem (by simp [hnil']), hpc, Function.update_self, hk]
      rw [supply, hsum, hval, supply, hnew, token_of_not_mem hcur, hw]
      omega
  · have hleft : c'.kernel.members (.semaphore x) = l := by simpa [hl] using hread.left.symm
    have hp : p ∈ c.kernel.members (.semaphore x) := by simp [hl]
    have hpl : p ∉ l := (List.nodup_cons.mp (hl ▸ hwf.nodup (.semaphore x))).1
    have hsub : ∀ r ∈ l, r ∈ c.kernel.members (.semaphore x) := fun r hr => by simp [hl, hr]
    have hne : ∀ r ∈ c.kernel.members (.semaphore x), r ≠ c.current := by
      rintro r hr rfl
      exact hcur hr
    refine ⟨⟨hval ▸ h.nonneg, fun r hr => ?_⟩, ?_⟩
    · have hr' := hsub r (hleft ▸ hr)
      rw [hpc, Function.update_of_ne (hne r hr')]
      exact h.waiters r hr'
    · -- The caller gives its token to the head of the queue.
      have hgive := sum_eq_add (f := token x w c) (g := Function.update (token x w c) p 1) p
        fun r hr => Function.update_of_ne hr ..
      have hcall := sum_eq_add (f := Function.update (token x w c) p 1) (g := token x w c')
          c.current fun r hr => by
        by_cases hrp : r = p
        · subst hrp
          simp [token, hleft, hpl, hpc, Function.update_of_ne hr, h.waiters r hp]
        · simp [token, hleft, hl, hrp, hpc, Function.update_of_ne hr]
      have hnew : token x w c' c.current = 0 := by
        rw [token_of_not_mem fun hc => hne _ (hsub _ (hleft ▸ hc)) rfl, hpc, Function.update_self,
          hk]
      rw [supply, hcall, hgive, hval, supply, Function.update_self, Function.update_of_ne
        (Ne.symm (hne p hp)),
        hnew, token_of_mem hp, token_of_not_mem hcur, hw]
      omega

end Tokens

def Pc.hasSpace : Pc len → Int
  | .sendAcquire _ | .sendMove _ | .sendCopy _ | .recvMove _ | .recvRelease _ | .recvUp _ => 1
  | _ => 0

def Pc.hasMessage : Pc len → Int
  | .sendRelease | .sendUp | .recvAcquire | .recvCopy => 1
  | _ => 0

structure Balanced (b : MboxRef) (c : Conf len) : Prop where
  space : Side b.send Pc.hasSpace c
  message : Side b.recv Pc.hasMessage c
  free : supply b.send Pc.hasSpace c = maxMboxLength + c.received.length - c.stored.length
  filled : supply b.recv Pc.hasMessage c = c.stored.length - c.received.length

section Balanced

theorem Pc.hasSpace_nonneg (k : Pc len) : 0 ≤ k.hasSpace := by
  cases k <;> simp [Pc.hasSpace]

theorem Pc.hasMessage_nonneg (k : Pc len) : 0 ≤ k.hasMessage := by
  cases k <;> simp [Pc.hasMessage]

theorem afterAcquire_congr {α : Type} {f : Pc len → α} (hf : ∀ k, f k.acquired = f k)
    (b : MboxRef) (c : Conf len) (op : Op) (s' : Kernel) :
    f (afterAcquire b c op s') = f (c.pc c.current) := by
  simp only [afterAcquire]
  split
  · exact hf _
  · rfl

theorem hasSpace_afterAcquire (b : MboxRef) (c : Conf len) (op : Op) (s' : Kernel) :
    (afterAcquire b c op s').hasSpace = (c.pc c.current).hasSpace :=
  afterAcquire_congr (fun k => by cases k <;> rfl) b c op s'

theorem hasMessage_afterAcquire (b : MboxRef) (c : Conf len) (op : Op) (s' : Kernel) :
    (afterAcquire b c op s').hasMessage = (c.pc c.current).hasMessage :=
  afterAcquire_congr (fun k => by cases k <;> rfl) b c op s'

structure SameSem (x : Nat) (s s' : Kernel) : Prop where
  value : s'.semValue x = s.semValue x
  members : s'.members (.semaphore x) = s.members (.semaphore x)

theorem sameSem_step {s : Kernel} {x : Nat} (hwf : WellFormed s) (hop : KillsFind s op)
    (hon : ¬ OpOn (.semaphore x) op) (hs : step op s = .ok s') : SameSem x s s' :=
  ⟨congrArg Prod.fst (counters_of_not_opOn hon hs), hwf.members_step (q := .semaphore x) trivial hop
  hon hs⟩

variable {k : Pc len}

theorem Side.other {x : Nat} {w : Pc len → Int} (h : Side x w c) (hwf : WellFormed c.kernel)
    (hs : step op c.kernel = .ok c'.kernel) (hpc : c'.pc = Function.update c.pc c.current k)
    (hon : ¬ OpOn (.semaphore x) op) (hkill : KillsFind c.kernel op)
    (hw : w k = w (c.pc c.current)) :
    Side x w c' ∧ supply x w c' = supply x w c := by
  obtain ⟨hval, hmem⟩ := sameSem_step hwf hkill hon hs
  obtain ⟨hside, hsupply⟩ := h.keep hwf hpc hval hmem
  exact ⟨hside, by omega⟩

theorem Balanced.keep (h : Balanced b c) (hwf : WellFormed c.kernel)
    (hpc : c'.pc = Function.update c.pc c.current k)
    (hsend : SameSem b.send c.kernel c'.kernel) (hrecv : SameSem b.recv c.kernel c'.kernel)
    (hfree : k.hasSpace - (c.pc c.current).hasSpace =
      (c'.received.length - c.received.length : Int) - (c'.stored.length - c.stored.length))
    (hfill : k.hasMessage - (c.pc c.current).hasMessage =
      (c'.stored.length - c.stored.length : Int) - (c'.received.length - c.received.length)) :
    Balanced b c' := by
  obtain ⟨hspace, hsupply⟩ := h.space.keep hwf hpc hsend.value hsend.members
  obtain ⟨hmessage, hsupply'⟩ := h.message.keep hwf hpc hrecv.value hrecv.members
  have hf := h.free
  have hm := h.filled
  exact ⟨hspace, hmessage, by omega, by omega⟩

theorem Balanced.of_sides (h : Balanced b c)
    (hspace : Side b.send Pc.hasSpace c' ∧ supply b.send Pc.hasSpace c' = supply b.send Pc.hasSpace
    c)
    (hmessage : Side b.recv Pc.hasMessage c' ∧ supply b.recv Pc.hasMessage c' = supply b.recv
    Pc.hasMessage c)
    (hstored : c'.stored = c.stored) (hreceived : c'.received = c.received) : Balanced b c' :=
  ⟨hspace.1, hmessage.1, by rw [hspace.2, hstored, hreceived, h.free],
    by rw [hmessage.2, hstored, hreceived, h.filled]⟩

theorem balanced_effect (hwf : WellFormed c.kernel) (h : Balanced b c) (he : Effect b c e c') :
    Balanced b c' := by
  have hstay : ∀ x, SameSem x c.kernel c.kernel := fun x => ⟨rfl, rfl⟩
  have hcall : ∀ {op}, AnyCall c.kernel op → (∀ n, op ≠ .kill n) → KillsFind c.kernel op :=
      fun hany hkill =>
    ⟨hany, fun n e => absurd e (hkill n)⟩
  have hrelease : ∀ x {s'}, step (.release b.lock) c.kernel = .ok s' → SameSem x c.kernel s' := by
    intro x s' hs
    exact sameSem_step hwf (hcall (by trivial) (by simp)) (by exact id) hs
  have hother : ∀ {x y : Nat}, x ≠ y → ¬ OpOn (.semaphore x) (.down y) ∧ ¬ OpOn (.semaphore x)
      (.up y) :=
    fun hne => ⟨fun e => hne (QueueRef.semaphore.inj e), fun e => hne (QueueRef.semaphore.inj e)⟩
  cases he with
  | quiet op hop hs =>
    have hkill : KillsFind c.kernel op := by
      rcases hop with hop | rfl
      · exact hop.killsFind
      · exact ⟨trivial, by simp⟩
    have hon : ∀ {x}, x = b.send ∨ x = b.recv → ¬ OpOn (.semaphore x) op := by
      intro x hx
      rcases hop with hop | rfl
      · exact hop.not_opOn hx
      · exact id
    exact h.keep hwf rfl (sameSem_step hwf hkill (hon (.inl rfl)) hs) (sameSem_step hwf hkill
      (hon (.inr rfl)) hs)
      (by simp [hasSpace_afterAcquire, Conf.called])
        (by simp [hasMessage_afterAcquire, Conf.called])
  | send m hpc hs =>
    exact h.of_sides (h.space.down hwf hs rfl (by rw [hpc]; rfl) rfl)
      (h.message.other hwf hs rfl (hother b.distinct.symm).1 (hcall trivial (by simp))
        (by rw [hpc]; rfl)) rfl rfl
  | recv hpc hs =>
    exact h.of_sides (h.space.other hwf hs rfl (hother b.distinct).1 (hcall trivial (by simp))
      (by rw [hpc]; rfl))
      (h.message.down hwf hs rfl (by rw [hpc]; rfl) rfl) rfl rfl
  | sendMove m hpc =>
    exact h.keep hwf rfl (hstay _) (hstay _) (by simp [hpc, Pc.hasSpace, Conf.goto])
      (by simp [hpc, Pc.hasMessage, Conf.goto])
  | sendCopy m hpc =>
    exact h.keep hwf rfl (hstay _) (hstay _) (by simp [hpc, Pc.hasSpace, Conf.goto])
      (by simp [hpc, Pc.hasMessage, Conf.goto])
  | sendRelease hpc hs =>
    exact h.keep hwf rfl (hrelease _ hs) (hrelease _ hs) (by simp [hpc, Pc.hasSpace, Conf.called])
      (by simp [hpc, Pc.hasMessage, Conf.called])
  | sendUp hpc hs =>
    exact h.of_sides (h.space.other hwf hs rfl (hother b.distinct).2 (hcall trivial (by simp))
      (by rw [hpc]; rfl))
      (h.message.up hwf hs rfl (by rw [hpc]; rfl) rfl) rfl rfl
  | recvCopy hpc =>
    exact h.keep hwf rfl (hstay _) (hstay _) (by simp [hpc, Pc.hasSpace, Conf.goto])
      (by simp [hpc, Pc.hasMessage, Conf.goto])
  | recvMove m hpc =>
    exact h.keep hwf rfl (hstay _) (hstay _) (by simp [hpc, Pc.hasSpace, Conf.goto])
      (by simp [hpc, Pc.hasMessage, Conf.goto])
  | recvRelease m hpc hs =>
    exact h.keep hwf rfl (hrelease _ hs) (hrelease _ hs) (by simp [hpc, Pc.hasSpace, Conf.called])
      (by simp [hpc, Pc.hasMessage, Conf.called])
  | recvUp m hpc hs =>
    exact h.of_sides (h.space.up hwf hs rfl (by rw [hpc]; rfl) rfl)
      (h.message.other hwf hs rfl (hother b.distinct.symm).2 (hcall trivial (by simp))
        (by rw [hpc]; rfl)) rfl rfl

end Balanced

end Ucas.Mailbox

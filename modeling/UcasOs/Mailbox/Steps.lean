import UcasOs.Mailbox.Model

/-! What one step of a mailbox can be, and that its lock guards the part between acquire and
release. -/

namespace Ucas.Mailbox
open Ucas.Lib Ucas.Sched Relation

variable {len : Nat} {b : MboxRef} {c c' : Conf len} {e : Event len} {op : Op} {s' : Kernel}
  {p : PcbRef}

def Conf.current (c : Conf len) : PcbRef := c.kernel.currentRunning

def Conf.called (b : MboxRef) (c : Conf len) (op : Op) (k : Pc len) (s' : Kernel) : Conf len :=
  { c with
    kernel := s'
    holders := holdersAfter b.lock c.kernel op s' c.holders
    pc := Function.update c.pc c.current k }

def Conf.goto (c : Conf len) (k : Pc len) : Conf len :=
  { c with pc := Function.update c.pc c.current k }

inductive Effect (b : MboxRef) (c : Conf len) : Event len → Conf len → Prop
  | quiet {e : Event len} {s' : Kernel} (op : Op) (hop : Apart b op ∨ op = .acquire b.lock)
    (hs : step op c.kernel = .ok s') :
    Effect b c e (c.called b op (afterAcquire b c op s') s')
  | send {s' : Kernel} (m : Buffer len) (hpc : c.pc c.current = .out)
    (hs : step (.down b.send) c.kernel = .ok s') :
    Effect b c (.send m) ({ c with sent := c.sent ++ [m] }.called b (.down b.send) (.sendAcquire m)
    s')
  | recv {s' : Kernel} (hpc : c.pc c.current = .out) (hs : step (.down b.recv) c.kernel = .ok s') :
    Effect b c .recv (c.called b (.down b.recv) .recvAcquire s')
  | sendMove (m : Buffer len) (hpc : c.pc c.current = .sendMove m) :
    Effect b c .next ({ c with ptr := (c.ptr + 1) % maxMboxLength }.goto (.sendCopy m))
  | sendCopy (m : Buffer len) (hpc : c.pc c.current = .sendCopy m) :
    Effect b c .next ({ c with
      msg := Function.update c.msg c.ptr ((c.msg c.ptr).blit 0 m)
      stored := c.stored ++ [m] }.goto .sendRelease)
  | sendRelease {s' : Kernel} (hpc : c.pc c.current = .sendRelease) (hs : step (.release b.lock)
    c.kernel = .ok s') :
    Effect b c .next (c.called b (.release b.lock) .sendUp s')
  | sendUp {s' : Kernel} (hpc : c.pc c.current = .sendUp) (hs : step (.up b.recv) c.kernel = .ok
    s') :
    Effect b c .next (c.called b (.up b.recv) .out s')
  | recvCopy (hpc : c.pc c.current = .recvCopy) :
    Effect b c .next ({ c with received := c.received ++ [(c.msg c.ptr).slice 0 len] }.goto
      (.recvMove ((c.msg c.ptr).slice 0 len)))
  | recvMove (m : Buffer len) (hpc : c.pc c.current = .recvMove m) :
    Effect b c .next ({ c with ptr := (c.ptr + maxMboxLength - 1) % maxMboxLength }.goto
      (.recvRelease m))
  | recvRelease {s' : Kernel} (m : Buffer len) (hpc : c.pc c.current = .recvRelease m)
      (hs : step (.release b.lock) c.kernel = .ok s') :
    Effect b c .next (c.called b (.release b.lock) (.recvUp m) s')
  | recvUp {s' : Kernel} (m : Buffer len) (hpc : c.pc c.current = .recvUp m) (hs : step (.up b.send)
    c.kernel = .ok s') :
    Effect b c .next (c.called b (.up b.send) .out s')

theorem call_ok {k : Kernel → Pc len} (h : c.call b op k = .ok c') :
    ∃ s', step op c.kernel = .ok s' ∧ c' = c.called b op (k s') s' := by
  obtain ⟨s', hs, h⟩ := exists_of_bind_ok h
  exact ⟨s', hs, (Except.ok.inj h).symm⟩

theorem inUser_ok {k : Pc len} {d : Conf len} (h : c.inUser k d = .ok c') :
    c' = { d with pc := Function.update d.pc c.current k } := by
  rw [Conf.inUser] at h
  split at h
  · exact (Except.ok.inj h).symm
  · cases h

theorem Pc.isOut_iff {k : Pc len} : k.isOut = true ↔ k = .out := by
  cases k <;> simp [Pc.isOut]

theorem effect_of_next (h : nextStatement b c = .ok c') : Effect b c .next c' := by
  rw [nextStatement] at h
  split at h
  · cases h
  · obtain ⟨s', hs, rfl⟩ := call_ok h
    exact .quiet _ (.inr rfl) hs
  · obtain ⟨s', hs, rfl⟩ := call_ok h
    exact .quiet _ (.inr rfl) hs
  · next m hpc =>
    rw [inUser_ok h]
    exact .sendMove m hpc
  · next m hpc =>
    rw [inUser_ok h]
    exact .sendCopy m hpc
  · next hpc =>
    obtain ⟨s', hs, rfl⟩ := call_ok h
    exact .sendRelease hpc hs
  · next hpc =>
    obtain ⟨s', hs, rfl⟩ := call_ok h
    exact .sendUp hpc hs
  · next hpc =>
    rw [inUser_ok h]
    exact .recvCopy hpc
  · next m hpc =>
    rw [inUser_ok h]
    exact .recvMove m hpc
  · next m hpc =>
    obtain ⟨s', hs, rfl⟩ := call_ok h
    exact .recvRelease m hpc hs
  · next m hpc =>
    obtain ⟨s', hs, rfl⟩ := call_ok h
    exact .recvUp m hpc hs

theorem effect_of_step (ha : Allowed b c e) (h : mboxStep b c e = .ok c') : Effect b c e c' := by
  cases e with
  | send m =>
    rw [mboxStep] at h
    split at h
    · next hpc =>
      obtain ⟨s', hs, rfl⟩ := call_ok h
      exact .send m (Pc.isOut_iff.mp hpc) hs
    · cases h
  | recv =>
    rw [mboxStep] at h
    split at h
    · next hpc =>
      obtain ⟨s', hs, rfl⟩ := call_ok h
      exact .recv (Pc.isOut_iff.mp hpc) hs
    · cases h
  | next => exact effect_of_next h
  | other op =>
    obtain ⟨s', hs, rfl⟩ := call_ok h
    exact .quiet op (.inl ha.1) hs

section Apart
variable {h : Finset PcbRef} {s : Kernel}

theorem Apart.killsFind (hop : Apart b op) : KillsFind s op := by
  refine ⟨?_, ?_⟩
  · cases op <;> first | exact trivial | exact ⟨hop.1, hop.2.1⟩
  · rintro n rfl
    exact hop.elim

theorem Apart.mutexCall (hop : Apart b op) : MutexCall b.lock ⟨s, h⟩ op := by
  cases op with
  | exit => exact hop
  | kill n => exact hop
  | block q => exact ⟨hop.1, hop.2.1, hop.2.2.1⟩
  | unblockOne q => exact ⟨hop.1, hop.2.1, hop.2.2.1⟩
  | unblockAll q => exact ⟨hop.1, hop.2.1, hop.2.2.1⟩
  | mutexInit m => exact hop
  | release m => exact fun e => absurd e hop
  | wait m n => exact fun e => absurd e hop
  | _ => trivial

theorem Apart.not_opOn (hop : Apart b op) {x : Nat} (hx : x = b.send ∨ x = b.recv) :
    ¬ OpOn (.semaphore x) op := by
  have hblock : ∀ q : QueueRef, q ≠ .semaphore b.send ∧ q ≠ .semaphore b.recv →
      q ≠ .semaphore x := by
    rintro q ⟨h1, h2⟩
    rcases hx with rfl | rfl <;> assumption
  have hsem : ∀ y, y ≠ b.send ∧ y ≠ b.recv → QueueRef.semaphore x ≠ .semaphore y := by
    rintro y ⟨h1, h2⟩ e
    cases e
    exact hx.elim h1 h2
  intro hon
  cases op with
  | kill n => exact hop
  | block q => exact hblock q hop.2.2.2 hon
  | unblockOne q => exact hblock q hop.2.2.2 hon
  | unblockAll q => exact hblock q hop.2.2.2 hon
  | semaphoreInit y v => exact hsem y hop hon
  | up y => exact hsem y hop hon
  | down y => exact hsem y hop hon
  | _ => cases hon

theorem Apart.keepsLock (hop : Apart b op) : op ≠ .release b.lock ∧ ∀ n, op ≠ .wait b.lock n := by
  refine ⟨?_, ?_⟩
  · rintro rfl
    exact hop rfl
  · rintro n rfl
    exact hop rfl

theorem mem_holdersAfter {m : MutexRef} (hop : op ≠ .release m ∧ ∀ n, op ≠ .wait m n)
    (hp : p ∈ h) (hrun : step op s = .ok s') : p ∈ holdersAfter m s op s' h := by
  by_cases hacq : acquiring s op = some m
  · cases hm : s.mutexStatus m with
    | unlocked =>
      rw [holdersAfter_acquired hacq hm hrun]
      exact Finset.mem_insert_of_mem hp
    | locked => rwa [holdersAfter_blocked hacq hm hrun]
  · rwa [holdersAfter_elsewhere ⟨hacq, hop.1, hop.2⟩]

theorem mem_holdersAfter_of_ne {m : MutexRef} (hp : p ∈ h) (hne : p ≠ s.currentRunning)
    (hrun : step op s = .ok s') : p ∈ holdersAfter m s op s' h := by
  by_cases hrel : op = .release m ∨ ∃ n, op = .wait m n
  · rw [holdersAfter_released hrel]
    exact Finset.mem_erase_of_ne_of_mem hne hp
  · exact mem_holdersAfter ⟨fun e => hrel (.inl e), fun n e => hrel (.inr ⟨n, e⟩)⟩ hp hrun

end Apart

def Pc.Critical : Pc len → Prop
  | .sendMove _ | .sendCopy _ | .sendRelease | .recvCopy | .recvMove _ | .recvRelease _ => True
  | _ => False

structure Guarded (b : MboxRef) (c : Conf len) : Prop where
  excluded : Excluded b.lock ⟨c.kernel, c.holders⟩
  critical : ∀ p, (c.pc p).Critical → p ∈ c.holders

section Guarded

theorem Guarded.unique (h : Guarded b c) {p r : PcbRef} (hp : (c.pc p).Critical)
    (hr : (c.pc r).Critical) :
    p = r := h.excluded.unique p (h.critical p hp) r (h.critical r hr)

theorem Guarded.goto (h : Guarded b c) (hc : (c.pc c.current).Critical) (k : Pc len) (d : Conf len)
    (hk : d.kernel = c.kernel) (hh : d.holders = c.holders) (hpc : d.pc = c.pc) :
    Guarded b (d.goto k) := by
  refine ⟨?_, fun p hp => ?_⟩
  · simp only [Conf.goto, hk, hh]
    exact h.excluded
  · simp only [Conf.goto, Conf.current, hk, hpc, hh] at hp ⊢
    by_cases hcur : p = c.kernel.currentRunning
    · exact hcur ▸ h.critical _ hc
    · rw [Function.update_of_ne hcur] at hp
      exact h.critical p hp

theorem Guarded.called (h : Guarded b c) (hwf : WellFormed c.kernel) {k : Pc len}
    (hs : step op c.kernel = .ok s') (hop : MutexCall b.lock ⟨c.kernel, c.holders⟩ op)
    (hk : k.Critical → c.current ∈ holdersAfter b.lock c.kernel op s' c.holders) :
    Guarded b (c.called b op k s') := by
  refine ⟨?_, fun p hp => ?_⟩
  · obtain ⟨a, hsim, hT, -⟩ := hwf
    exact excluded_of_step hsim hT h.excluded hop hs
  · simp only [Conf.called] at hp ⊢
    by_cases hcur : p = c.current
    · subst hcur
      rw [Function.update_self] at hp
      exact hk hp
    · rw [Function.update_of_ne hcur] at hp
      exact mem_holdersAfter_of_ne (h.critical p hp) hcur hs

theorem afterAcquire_critical (h : Guarded b c) (hs : step op c.kernel = .ok s')
    (hop : op ≠ .release b.lock ∧ ∀ n, op ≠ .wait b.lock n)
    (hk : (afterAcquire b c op s').Critical) :
    c.current ∈ holdersAfter b.lock c.kernel op s' c.holders := by
  simp only [afterAcquire] at hk
  split at hk
  · next hacq =>
    rw [holdersAfter_acquired hacq.1 ((returned_iff hacq.1 hs).mp hacq.2) hs]
    exact Finset.mem_insert_self ..
  · exact mem_holdersAfter hop (h.critical _ hk) hs

theorem guarded_effect (hwf : WellFormed c.kernel) (h : Guarded b c) (he : Effect b c e c') :
    Guarded b c' := by
  cases he with
  | quiet op hop hs =>
    rcases hop with hop | rfl
    · exact h.called hwf hs hop.mutexCall (afterAcquire_critical h hs hop.keepsLock)
    · exact h.called hwf hs trivial (afterAcquire_critical h hs ⟨by simp, by simp⟩)
  | send m hpc hs =>
    have h' : Guarded b { c with sent := c.sent ++ [m] } := ⟨h.excluded, h.critical⟩
    exact h'.called (k := .sendAcquire m) hwf hs trivial False.elim
  | recv hpc hs => exact h.called hwf hs trivial False.elim
  | sendMove m hpc => exact h.goto (by rw [hpc]; trivial) _ _ rfl rfl rfl
  | sendCopy m hpc => exact h.goto (by rw [hpc]; trivial) _ _ rfl rfl rfl
  | sendRelease hpc hs =>
    have hcur : c.current ∈ c.holders := h.critical _ (by rw [hpc]; trivial)
    exact h.called hwf hs (fun _ => hcur) False.elim
  | sendUp hpc hs => exact h.called hwf hs trivial False.elim
  | recvCopy hpc => exact h.goto (by rw [hpc]; trivial) _ _ rfl rfl rfl
  | recvMove m hpc => exact h.goto (by rw [hpc]; trivial) _ _ rfl rfl rfl
  | recvRelease m hpc hs =>
    have hcur : c.current ∈ c.holders := h.critical _ (by rw [hpc]; trivial)
    exact h.called hwf hs (fun _ => hcur) False.elim
  | recvUp m hpc hs => exact h.called hwf hs trivial False.elim

end Guarded

theorem wellFormed_effect (hwf : WellFormed c.kernel) (he : Effect b c e c') :
    WellFormed c'.kernel := by
  have hstep : ∀ {op s'}, step op c.kernel = .ok s' → AnyCall c.kernel op → (∀ n, op ≠ .kill n) →
      WellFormed s' :=
    fun hs hany hkill => hwf.step ⟨hany, fun n e => absurd e (hkill n)⟩ hs
  cases he with
  | quiet op hop hs =>
    rcases hop with hop | rfl
    · exact hwf.step hop.killsFind hs
    · exact hstep hs trivial (by simp)
  | send m hpc hs => exact hstep hs trivial (by simp)
  | recv hpc hs => exact hstep hs trivial (by simp)
  | sendRelease hpc hs => exact hstep hs trivial (by simp)
  | sendUp hpc hs => exact hstep hs trivial (by simp)
  | recvRelease m hpc hs => exact hstep hs trivial (by simp)
  | recvUp m hpc hs => exact hstep hs trivial (by simp)
  | sendMove m hpc => exact hwf
  | sendCopy m hpc => exact hwf
  | recvCopy hpc => exact hwf
  | recvMove m hpc => exact hwf

end Ucas.Mailbox

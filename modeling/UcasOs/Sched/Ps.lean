import UcasOs.Sched.Dispatch

/-! `do_ps` writes a table of the processes for the shell: the running process, then the control
blocks that are ready, sleeping and blocked, and a last entry with the number -1. -/

namespace Ucas.Sched
open Ucas.Lib

structure ProcessShow where
  num : Int
  pid : Nat
  status : TaskStatus
  deriving DecidableEq, Repr

/-- `process_show_t ProcessShow[40]`. -/
abbrev ShowTable := Fin 40 → ProcessShow

/-- `ProcessShow[i] = ...; i++`, with nothing for a store behind the table. -/
def showProcess (s : Tasks) (p : PcbRef) (c : Nat × ShowTable) : Option (Nat × ShowTable) :=
  if h : c.1 < 40 then some (c.1 + 1, Function.update c.2 ⟨c.1, h⟩ ⟨c.1, s.pid p, s.status p⟩) else
    none

def showStatus (s : Tasks) (status : TaskStatus) (c : Nat × ShowTable) : Option (Nat × ShowTable) :=
  (List.finRange numMaxTask).foldlM
    (fun c j => if s.status (.task j) = status then showProcess s (.task j) c else some c) c

/-- `ProcessShow[i].num = -1`. -/
def endShow (c : Nat × ShowTable) : Option ShowTable :=
  if h : c.1 < 40 then some (Function.update c.2 ⟨c.1, h⟩ { c.2 ⟨c.1, h⟩ with num := -1 }) else none

def doPs (s : Tasks) (table : ShowTable) : Option ShowTable := do
  let c ← showProcess s s.currentRunning (0, table)
  let c ← showStatus s .ready c
  let c ← showStatus s .sleeping c
  let c ← showStatus s .blocked c
  endShow c

section Append

def Shown (c : Nat × ShowTable) (l : List (Nat × TaskStatus)) : Prop :=
  c.1 = l.length ∧ ∀ (i : Fin 40) e, l[i.val]? = some e → c.2 i = ⟨i.val, e.1, e.2⟩

/-- A part of `do_ps` writes these entries behind the others, if there is room for all of them. -/
def Appends (f : Nat × ShowTable → Option (Nat × ShowTable)) (m : List (Nat × TaskStatus)) : Prop :=
  ∀ c l, Shown c l →
    if l.length + m.length ≤ 40 then ∃ c', f c = some c' ∧ Shown c' (l ++ m) else l.length ≤ 40 →
      f c = none

variable {f g : Nat × ShowTable → Option (Nat × ShowTable)} {m n : List (Nat × TaskStatus)}

theorem Appends.skip : Appends some [] := by
  intro c l hc
  split_ifs with hfit
  · exact ⟨c, rfl, by rwa [List.append_nil]⟩
  · exact fun hle => absurd hle hfit

theorem Appends.comp (hf : Appends f m) (hg : Appends g n) :
    Appends (fun c => f c >>= g) (m ++ n) := by
  intro c l hc
  have hfc := hf c l hc
  rw [List.length_append]
  -- the first part fails if it alone has no room
  by_cases hm : l.length + m.length ≤ 40
  · rw [if_pos hm] at hfc
    obtain ⟨c', hc', hshown⟩ := hfc
    have hgc := hg c' _ hshown
    rw [List.length_append, Nat.add_assoc, List.append_assoc] at hgc
    dsimp only
    rw [hc']
    split_ifs at hgc ⊢ with hfit
    · exact hgc
    · exact fun _ => hgc hm
  · rw [if_neg hm] at hfc
    rw [if_neg (by omega)]
    intro hle
    dsimp only
    rw [hfc hle]
    rfl

theorem appends_showProcess (s : Tasks) (p : PcbRef) :
    Appends (showProcess s p) [(s.pid p, s.status p)] := by
  rintro ⟨i, table⟩ l ⟨hi, hshown⟩
  obtain rfl : i = l.length := hi
  rw [List.length_singleton, showProcess]
  dsimp only at hshown ⊢
  split_ifs with hfit hfit'
  · refine ⟨_, rfl, by simp, fun j e hj => ?_⟩
    by_cases hjl : j.val = l.length
    · have hpos : j = ⟨l.length, by omega⟩ := Fin.ext hjl
      rw [hjl, List.getElem?_concat_length, Option.some.injEq] at hj
      rw [hpos, ← hj]
      exact Function.update_self ..
    · have hlt : j.val < l.length := by
        have := (List.getElem?_eq_some_iff.mp hj).1
        rw [List.length_append, List.length_singleton] at this
        omega
      rw [List.getElem?_append_left hlt] at hj
      rw [← hshown j e hj]
      exact Function.update_of_ne (fun h => hjl (congrArg Fin.val h)) ..
  · omega
  · omega
  · exact fun _ => rfl

def Tasks.ofStatus (s : Tasks) (status : TaskStatus) : List (Nat × TaskStatus) :=
  ((List.finRange numMaxTask).filter fun j => s.status (.task j) = status).map fun j =>
    (s.pid (.task j), s.status (.task j))

theorem appends_showStatus (s : Tasks) (status : TaskStatus) :
    Appends (showStatus s status) (s.ofStatus status) := by
  suffices h : ∀ js : List (Fin numMaxTask), Appends
      (fun c => js.foldlM (fun c j => if s.status (.task j) = status then showProcess s (.task j)
        c else some c) c)
      ((js.filter fun j => s.status (.task j) = status).map fun j => (s.pid (.task j), s.status
        (.task j))) from h _
  intro js
  induction js with
  | nil => exact .skip
  | cons j js ih =>
    simp only [List.foldlM_cons]
    by_cases hj : s.status (.task j) = status
    · rw [List.filter_cons_of_pos (by simpa using hj), List.map_cons]
      simp only [if_pos hj]
      exact (appends_showProcess s (.task j)).comp ih
    · rw [List.filter_cons_of_neg (by simpa using hj)]
      simp only [if_neg hj]
      exact Appends.skip.comp ih

end Append

def HoldsList (table : ShowTable) (l : List (Nat × TaskStatus)) : Prop :=
  ∃ n : Fin 40, n.val = l.length ∧ (table n).num = -1 ∧
    ∀ (i : Fin 40) e, l[i.val]? = some e → table i = ⟨i.val, e.1, e.2⟩

theorem HoldsList.unique {table : ShowTable} {l m : List (Nat × TaskStatus)}
    (hl : HoldsList table l) (hm : HoldsList table m) :
    l = m := by
  have hle : ∀ {l m : List (Nat × TaskStatus)}, HoldsList table l → HoldsList table m →
      m.length ≤ l.length := by
    rintro l m ⟨n, hn, hnum, -⟩ ⟨-, -, -, hshown⟩
    by_contra hlt
    have hentry := hshown n _ (List.getElem?_eq_getElem (by omega : n.val < m.length))
    rw [hentry] at hnum
    dsimp only at hnum
    omega
  have hlen : l.length = m.length := Nat.le_antisymm (hle hm hl) (hle hl hm)
  obtain ⟨n, hn, -, hshown⟩ := hl
  obtain ⟨-, -, -, hshown'⟩ := hm
  refine List.ext_getElem hlen fun i hi hi' => ?_
  have hpos : i < 40 := by omega
  have h := (hshown ⟨i, hpos⟩ _ (List.getElem?_eq_getElem hi)).symm.trans
    (hshown' ⟨i, hpos⟩ _ (List.getElem?_eq_getElem hi'))
  exact Prod.ext (congrArg ProcessShow.pid h) (congrArg ProcessShow.status h)

def Tasks.listing (s : Tasks) : List (Nat × TaskStatus) :=
  (s.pid s.currentRunning, s.status s.currentRunning) :: (s.ofStatus .ready ++
    (s.ofStatus .sleeping ++ s.ofStatus .blocked))

theorem doPs_eq (s : Tasks) (table : ShowTable) :
    if s.listing.length < 40 then ∃ table', doPs s table = some table' ∧ HoldsList table' s.listing
    else doPs s table = none := by
  have happ : Appends _ s.listing := (appends_showProcess s s.currentRunning).comp
    ((appends_showStatus s .ready).comp ((appends_showStatus s .sleeping).comp (appends_showStatus s
      .blocked)))
  have hrun := happ (0, table) [] ⟨rfl, fun _ _ h => by cases h⟩
  have hps : doPs s table = ((showProcess s s.currentRunning (0, table) >>= fun c => showStatus s
      .ready c >>= fun c =>
      showStatus s .sleeping c >>= showStatus s .blocked) >>= endShow) := by
    simp only [doPs, bind_assoc]
  rw [List.length_nil, Nat.zero_add, List.nil_append] at hrun
  dsimp only at hrun
  rw [hps]
  by_cases hfit : s.listing.length ≤ 40
  · rw [if_pos hfit] at hrun
    obtain ⟨⟨i, table'⟩, hc, hi, hshown⟩ := hrun
    rw [hc]
    obtain rfl : i = s.listing.length := hi
    simp only [Option.bind_eq_bind, Option.bind_some, endShow]
    split_ifs with hlt
    · refine ⟨_, rfl, ⟨_, hlt⟩, rfl, by rw [Function.update_self], fun j e hj => ?_⟩
      have hne : j ≠ ⟨s.listing.length, hlt⟩ := fun h => by
        rw [h, List.getElem?_eq_none (Nat.le_refl _)] at hj
        cases hj
      rw [Function.update_of_ne hne]
      exact hshown j e hj
    · rfl
  · rw [if_neg hfit] at hrun
    rw [if_neg (by omega), hrun (by decide)]
    rfl

theorem doPs_of_full {s : Tasks} (h : ¬ s.listing.length < 40) (table : ShowTable) :
    doPs s table = none := by
  have hps := doPs_eq s table
  rwa [if_neg h] at hps

def Tasks.live (s : Tasks) : List (Nat × TaskStatus) :=
  ((List.finRange numMaxTask).filter fun j => s.status (.task j) ≠ .exited).map fun j =>
    (s.pid (.task j), s.status (.task j))

def Tasks.PsComplete (s : Tasks) : Prop :=
  ∀ table, ∃ table' l, doPs s table = some table' ∧ HoldsList table' l ∧ l.Perm s.live

def Tasks.unlisted (s : Tasks) : List (Nat × TaskStatus) :=
  ((List.finRange numMaxTask).filter fun j => s.status (.task j) = .running ∨
    s.status (.task j) = .created).map
    fun j => (s.pid (.task j), s.status (.task j))

theorem live_perm (s : Tasks) :
    s.live.Perm (s.unlisted ++ (s.ofStatus .ready ++ (s.ofStatus .sleeping ++ s.ofStatus
    .blocked))) := by
  simp only [Tasks.live, Tasks.unlisted, Tasks.ofStatus, ← List.map_append]
  apply List.Perm.map
  rw [List.perm_iff_count]
  intro j
  have hcount : ∀ p : Fin numMaxTask → Bool,
      ((List.finRange numMaxTask).filter p).count j = if p j then (List.finRange numMaxTask).count
          j else 0 := by
    intro p
    split_ifs with hp
    · exact List.count_filter hp
    · exact List.count_eq_zero.mpr fun hmem => hp (List.of_mem_filter hmem)
  simp only [List.count_append, hcount]
  cases s.status (.task j) <;> simp

theorem length_live_lt_iff (s : Tasks) :
    s.live.length < 40 ↔ ∃ j, s.status (.task j) = .exited := by
  have hall : (List.finRange numMaxTask).length = 40 := List.length_finRange ..
  rw [Tasks.live, List.length_map, ← hall, List.length_filter_lt_length_iff_exists]
  simp

theorem Tasks.PsComplete.listing_perm {s : Tasks} (h : s.PsComplete) :
    s.listing.Perm s.live ∧ s.listing.length < 40 := by
  obtain ⟨table', l, hrun, hl, hlive⟩ := h fun _ => ⟨0, 0, .exited⟩
  have hps := doPs_eq s fun _ => ⟨0, 0, .exited⟩
  split_ifs at hps with hlt
  · obtain ⟨table'', hrun', hlist⟩ := hps
    obtain rfl := Option.some.inj (hrun.symm.trans hrun')
    exact ⟨hl.unique hlist ▸ hlive, hlt⟩
  · cases hrun.symm.trans hps

/-- `do_ps` is right exactly if the running process is the only one that is running or created, and
some control block is free, for the last entry. -/
theorem ps_complete_iff (s : Tasks) : s.PsComplete ↔
    s.unlisted = [(s.pid s.currentRunning, s.status s.currentRunning)] ∧
    ∃ j, s.status (.task j) = .exited := by
  have hperm : s.listing.Perm s.live ↔
      s.unlisted = [(s.pid s.currentRunning, s.status s.currentRunning)] := by
    rw [List.perm_comm, (live_perm s).congr_left, Tasks.listing, ← List.singleton_append,
      List.perm_append_right_iff, List.perm_singleton]
  rw [← hperm, ← length_live_lt_iff]
  constructor
  · intro h
    exact ⟨h.listing_perm.1, h.listing_perm.1.length_eq ▸ h.listing_perm.2⟩
  · rintro ⟨hlive, hlt⟩ table
    have hps := doPs_eq s table
    rw [if_pos (hlive.length_eq.symm ▸ hlt)] at hps
    obtain ⟨table', hrun, hlist⟩ := hps
    exact ⟨table', _, hrun, hlist, hlive⟩

theorem ps_incomplete :
    (∃ (s : Kernel) (j : Fin numMaxTask), Reachable KillsFind s ∧ s.status (.task j) = .created ∧
      (s.pid (.task j), s.status (.task j)) ∉ s.listing ∧ ¬ s.PsComplete) ∧
    ∃ s : Tasks, s.unlisted = [(s.pid s.currentRunning, s.status s.currentRunning)] ∧
    ∀ table, doPs s table = none := by
  constructor
  · obtain ⟨s, hs, htest⟩ := exists_of_endsIn
      (t := fun s : Kernel => s.status (.task ⟨0, by decide⟩) = .created ∧
        (s.pid (.task ⟨0, by decide⟩), s.status (.task ⟨0, by decide⟩)) ∉ s.listing)
      (r := execute 1 [.schedule, .spawn ⟨1⟩]) (by decide +kernel)
    obtain ⟨hcreated, hnot⟩ := of_decide_eq_true htest
    refine ⟨s, _, reachable_execute (by decide) (by simp [KillsFind, AnyCall]) hs, hcreated, hnot,
      fun h => hnot ?_⟩
    rw [h.listing_perm.1.mem_iff, Tasks.live]
    exact List.mem_map_of_mem (List.mem_filter.mpr ⟨List.mem_finRange _, by simp [hcreated]⟩)
  · obtain ⟨s, -, htest⟩ := exists_of_endsIn
      (t := fun s : Kernel =>
        let s : Tasks :=
          { s with status := fun p => if p = s.currentRunning then .running else .ready }
        s.unlisted = [(s.pid s.currentRunning, s.status s.currentRunning)] ∧
          ¬ s.listing.length < 40)
      (r := execute 1 [.schedule, .spawn ⟨1⟩]) (by decide +kernel)
    obtain ⟨hrunning, hfull⟩ := of_decide_eq_true htest
    exact ⟨_, hrunning, doPs_of_full hfull⟩

end Ucas.Sched

import UcasOs.Fs.Nested

/-! Paths: where `separate_path` takes them apart, what `do_mkdir` and `do_rmdir` then make of a
name without a slash, and how far `do_cd` goes along a path that does not exist. -/

namespace Ucas.Fs
open Ucas.Lib

/-- `do_mkdir` and `do_rmdir` do the same with `name` as with `./name`. -/
def TreatedAlike (name : Text) : Prop := ∀ s : FileSys,
  (∀ e mode, s.doMkdir e name mode = s.doMkdir e (Text.dot.child name) mode) ∧
  s.doRmdir name = s.doRmdir (Text.dot.child name)

theorem path_split_iff {path parent name : Text} (h : Splits path parent name)
    (hpath : path.length < 512)
    (hne : name.bytes ≠ []) (hname : name.length < 64) :
    separatePath path 64 = .ok (parent, name) ∧ (Text.slash ∉ path.bytes → TreatedAlike path) ↔
      Text.slash ∈ path.bytes := by
  constructor
  · rintro ⟨hsep, -⟩
    by_contra hplain
    obtain rfl := h.eq_of_plain hplain
    -- the first byte is not in the name that the code takes
    obtain ⟨_, -, hsep⟩ := exists_of_bind_ok hsep
    obtain ⟨_, -, hsep⟩ := exists_of_bind_ok hsep
    have hdrop := congrArg Text.length (Prod.mk.inj (Except.ok.inj hsep)).2
    have hpos := List.length_pos_of_ne_nil hne
    rw [Text.length, Text.drop, List.length_drop, Text.length] at hdrop
    omega
  · exact fun hslash => ⟨h.separatePath hslash hpath hname, fun hplain => absurd hslash hplain⟩

theorem path_split_iff_dot_a : separatePath (Text.dot.child .a) 64 = .ok (.dot, .a) :=
  ((path_split_iff (.child (by decide) (by decide)) (by decide) (by decide) (by decide)).mpr
    (by decide)).1

theorem mkdir_without_slash : ∃ s r t, FileSys.blank.doMkfs .blank = .ok s ∧ Splits .a .dot .a ∧
    separatePath .a 64 = .ok (.a, .empty) ∧ s.doMkdir .blank .a 0 = .ok (errorDupDirName, r) ∧
    s.doMkdir .blank (Text.dot.child .a) 0 = .ok (0, t) ∧ ¬ TreatedAlike .a := by
  obtain ⟨s, hs, hshows⟩ := doMkfs_shows .blank .blank
  obtain ⟨n, r, _, hr, -, hn⟩ := hshows.exists_mkdir .a 0
    (q := fun x => x.1 == errorDupDirName) (by decide +kernel)
  obtain ⟨m, t, _, ht, -, hm⟩ := hshows.exists_mkdir (Text.dot.child .a) 0
    (q := fun x => x.1 == 0) (by decide +kernel)
  obtain rfl := eq_of_beq hn
  obtain rfl := eq_of_beq hm
  refine ⟨s, r, t, hs, .plain (by decide), by decide, hr, ht, fun halike => ?_⟩
  have heq := ((halike s).1 .blank 0).symm.trans hr
  rw [ht] at heq
  exact absurd (Prod.mk.inj (Except.ok.inj heq)).1 (by decide)

/-! The names along a path. -/

namespace Text

theorem cut_append (l r : List UInt8) : cut (l ++ slash :: r) = cut l ++ cut r := by
  induction l with
  | nil => simp [cut]
  | cons c cs ih =>
    rw [List.cons_append, cut, cut, ih]
    split_ifs with hc
    · rfl
    · cases hcut : cut cs with
      | nil => exact absurd hcut (cut_ne_nil cs)
      | cons w ws => rfl

theorem cut_of_notMem {l : List UInt8} (h : slash ∉ l) : cut l = [l] := by
  induction l with
  | nil => rfl
  | cons c cs ih =>
    rw [List.mem_cons, not_or] at h
    rw [cut, if_neg (Ne.symm h.1), ih h.2]

theorem components_map_bytes (t : Text) : t.components.map bytes = cut t.bytes := by
  simp [components, List.map_map, Function.comp_def]

theorem components_inj {a : Text} {l : List Text} (h : l.map bytes = cut a.bytes) :
    a.components = l :=
  List.map_injective_iff.mpr (fun _ _ => ext_bytes) ((components_map_bytes a).trans h.symm)

theorem components_child (dir name : Text) :
    (dir.child name).components = dir.components ++ name.components := by
  refine components_inj ?_
  rw [List.map_append, components_map_bytes, components_map_bytes, child_bytes, cut_append]

theorem components_of_plain {t : Text} (h : slash ∉ t.bytes) : t.components = [t] :=
  components_inj (by rw [cut_of_notMem h]; rfl)

/-- What is looked up along a path. What stands before a leading slash is the root. -/
def names (path : Text) : List Text :=
  match path.components with
  | first :: second :: rest => (if first.bytes = [] then root else first) :: second :: rest
  | l => l

theorem names_one {a b : Text} (ha : slash ∉ a.bytes) (hb : slash ∉ b.bytes) :
    (a.child b).names = [if a.bytes = [] then root else a, b] := by
  rw [names, components_child, components_of_plain ha, components_of_plain hb]
  rfl

theorem names_two {a b c : Text} (ha : slash ∉ a.bytes) (hb : slash ∉ b.bytes)
    (hc : slash ∉ c.bytes) :
    ((a.child b).child c).names = [if a.bytes = [] then root else a, b, c] := by
  rw [names, components_child, components_child, components_of_plain ha, components_of_plain hb,
    components_of_plain hc]
  rfl

theorem countSlash_child {dir name : Text} (h : slash ∉ name.bytes) :
    (dir.child name).countSlash = dir.countSlash + 1 := by
  rw [countSlash, child_bytes, List.count_append, List.count_cons_self,
    List.count_eq_zero_of_not_mem h, countSlash]

theorem countSlash_eq_zero {t : Text} : t.countSlash = 0 ↔ slash ∉ t.bytes := List.count_eq_zero

theorem of_countSlash_succ {path : Text} {n : Nat} (h : path.countSlash = n + 1) :
    ∃ dir name : Text, path = dir.child name ∧ slash ∉ name.bytes ∧ dir.countSlash = n := by
  obtain ⟨dir, name, rfl, hname⟩ :=
    exists_child (List.count_pos_iff.mp (Nat.lt_of_lt_of_eq n.succ_pos h.symm))
  rw [countSlash_child hname] at h
  exact ⟨dir, name, rfl, hname, by omega⟩

/-- The path and the name it ends with fit in the buffers of `do_cd` and `do_find`. -/
def Fits (path : Text) : Prop :=
  path.length < 512 ∧ ∀ dir name : Text, path = dir.child name → slash ∉ name.bytes →
    name.length < 64

theorem child_inj {dir dir' name name' : Text} (hname : slash ∉ name.bytes)
    (hname' : slash ∉ name'.bytes)
    (h : dir.child name = dir'.child name') : dir = dir' ∧ name = name' := by
  have hlast := congrArg lastSlash h
  rw [lastSlash_child hname, lastSlash_child hname'] at hlast
  have hdir := congrArg (take · dir.bytes.length) h
  have hdrop := congrArg (drop · (dir.bytes.length + 1)) h
  simp only [take_child, drop_child] at hdir hdrop
  rw [hlast, take_child] at hdir
  rw [hlast, drop_child] at hdrop
  exact ⟨hdir, hdrop⟩

theorem fits_child {dir name : Text} (h : slash ∉ name.bytes) :
    (dir.child name).Fits ↔ (dir.child name).length < 512 ∧ name.length < 64 := by
  refine and_congr_right fun _ => ⟨fun hlast => hlast dir name rfl h, fun hlen dir' name' heq
    hname' => ?_⟩
  obtain ⟨-, rfl⟩ := child_inj h hname' heq
  exact hlen

end Text

theorem pathSteps_eq_ok {path single : Text} (hslash : Text.slash ∈ path.bytes)
    (h : path.countSlash ≤ 2)
    {r : Option (List Text)} :
    FileSys.pathSteps path single = .ok r ↔ path.Fits ∧ r = some path.names := by
  have hpos : 0 < path.countSlash := List.count_pos_iff.mpr hslash
  rw [FileSys.pathSteps, fits]
  by_cases hpath : path.length < 512
  · rw [if_pos hpath, ok_bind, if_neg (by omega)]
    by_cases hone : path.countSlash = 1
    · obtain ⟨dir, name, rfl, hname, hdir⟩ := Text.of_countSlash_succ hone
      rw [if_pos hone, Text.fits_child hname, Text.names_one (Text.countSlash_eq_zero.mp hdir)
        hname]
      constructor
      · intro heq
        obtain ⟨x, hsep, heq⟩ := exists_of_bind_ok heq
        obtain ⟨hfits, rfl⟩ := (Text.separatePath_child_eq hname).mp hsep
        exact ⟨hfits, (Except.ok.inj heq).symm⟩
      · rintro ⟨hfits, rfl⟩
        rw [(Text.separatePath_child_eq hname).mpr ⟨hfits, rfl⟩]
        rfl
    · obtain ⟨dir, name, rfl, hname, hdir⟩ :=
        Text.of_countSlash_succ (show path.countSlash = 1 + 1 by omega)
      obtain ⟨first, second, rfl, hsecond, hfirst⟩ := Text.of_countSlash_succ hdir
      have hfirst := Text.countSlash_eq_zero.mp hfirst
      have hne : (first.child second).bytes ≠ [] := fun hnil => by simp [Text.child_bytes] at hnil
      have hlen : (first.child second).length < 512 ∧ second.length < 512 := by
        simp only [Text.length, Text.child_bytes, List.length_append, List.length_cons] at hpath ⊢
        omega
      have hmid : separatePath (first.child second) 512 = .ok (if first.bytes = [] then .root else
          first, second) :=
        (Text.separatePath_child_eq hsecond).mpr ⟨hlen, rfl⟩
      rw [if_neg hone, if_pos (by omega), Text.fits_child hname, Text.names_two hfirst hsecond
        hname]
      constructor
      · intro heq
        obtain ⟨x, hsep, heq⟩ := exists_of_bind_ok heq
        obtain ⟨hfits, rfl⟩ := (Text.separatePath_child_eq hname).mp hsep
        rw [if_neg hne] at heq
        obtain ⟨y, hy, heq⟩ := exists_of_bind_ok heq
        obtain rfl := Except.ok.inj (hmid.symm.trans hy)
        exact ⟨hfits, (Except.ok.inj heq).symm⟩
      · rintro ⟨hfits, rfl⟩
        rw [(Text.separatePath_child_eq hname).mpr ⟨hfits, rfl⟩, if_neg hne, ok_bind]
        dsimp only
        rw [hmid]
        rfl
  · rw [if_neg hpath]
    exact iff_of_false (fun heq => by cases heq) fun hc => hpath hc.1.1

theorem Text.fits_of_plain {path : Text} (h : Text.slash ∉ path.bytes) :
    path.Fits ↔ path.length < 512 :=
  and_iff_left fun dir name heq _ => absurd (heq ▸ Text.slash_mem_child dir name) h

theorem pathSteps_of_plain {path single : Text} (h : Text.slash ∉ path.bytes)
    {r : Option (List Text)} :
    FileSys.pathSteps path single = .ok r ↔ path.Fits ∧ r = some [single] := by
  rw [FileSys.pathSteps, fits, Text.fits_of_plain h]
  by_cases hpath : path.length < 512
  · rw [if_pos hpath, ok_bind, if_pos (Text.countSlash_eq_zero.mpr h), pure_eq_ok, Except.ok.injEq,
      eq_comm]
    tauto
  · rw [if_neg hpath]
    exact iff_of_false (fun heq => by cases heq) fun hc => hpath hc.1

namespace FileSys

/-- The names looked up one after the other: where the last one leads, if none of them is
missing. -/
def walkTo (s : FileSys) : List Text → UInt32 × Inode → Except Fault (Option (UInt32 × Inode))
  | [], here => .ok (some here)
  | name :: rest, here => do
    let inum ← s.findFile here.2 name
    if inum = notFound then return none else s.walkTo rest (inum, s.syncFromDiskInode inum)

/-- The inode that the names lead to. -/
def resolve (s : FileSys) (names : List Text) (dir : Inode) : Except Fault (Option Inode) :=
  Option.map Prod.snd <$> s.walkTo names (0, dir)

/-- The number of the inode that the names lead to; `-1` if one of them is missing. -/
def lookUp (s : FileSys) (names : List Text) (n : UInt32) (dir : Inode) : Except Fault UInt32 :=
  (fun r => r.elim notFound Prod.fst) <$> s.walkTo names (n, dir)

/-- `do_cd` goes where the path leads, and stays where it is if a name is missing. -/
def CdsExactly (s : FileSys) (path : Text) : Prop :=
  ∃ r, s.resolve path.names s.currentDir = .ok r ∧
  s.doCd path = .ok (s.inSession fun x => { x with currentDir := r.getD s.currentDir })

/-- The names before the first one that is missing lead from directory `dir` to `stop`. -/
def StopsAt (s : FileSys) (names : List Text) (dir stop : Inode) : Prop := ∃ before name after,
  names = before ++ name :: after ∧ s.resolve before dir = .ok (some stop) ∧
    s.findFile stop name = .ok notFound

section Descend
variable {s : FileSys} {names : List Text} {dir stop : Inode}

theorem resolve_cons (s : FileSys) (name : Text) (names : List Text) (dir : Inode) :
    s.resolve (name :: names) dir = (s.findFile dir name >>= fun n =>
      if n = notFound then .ok none else s.resolve names (s.syncFromDiskInode n)) := by
  rw [resolve, walkTo]
  cases s.findFile dir name with
  | error e => rfl
  | ok n =>
    rw [ok_bind, ok_bind]
    split_ifs
    · rfl
    · cases names <;> rfl

theorem lookUp_cons (s : FileSys) (name : Text) (names : List Text) (m : UInt32) (dir : Inode) :
    s.lookUp (name :: names) m dir = (s.findFile dir name >>= fun n =>
      if n = notFound then .ok notFound else s.lookUp names n (s.syncFromDiskInode n)) := by
  rw [lookUp, walkTo]
  cases s.findFile dir name with
  | error e => rfl
  | ok n =>
    rw [ok_bind, ok_bind]
    split_ifs <;> rfl

theorem stopsAt_cons {name : Text} {n : UInt32} (hn : s.findFile dir name = .ok n) :
    s.StopsAt (name :: names) dir stop ↔
      if n = notFound then stop = dir else s.StopsAt names (s.syncFromDiskInode n) stop := by
  constructor
  · rintro ⟨before, name', after, hnames, hbefore, hmiss⟩
    cases before with
    | nil =>
      obtain rfl := Option.some.inj (Except.ok.inj hbefore)
      obtain ⟨rfl, -⟩ := List.cons.inj hnames
      rw [if_pos (Except.ok.inj (hn.symm.trans hmiss))]
    | cons first before =>
      obtain ⟨rfl, rfl⟩ := List.cons.inj hnames
      rw [resolve_cons, hn, ok_bind] at hbefore
      split_ifs at hbefore ⊢ with hfound
      · cases hbefore
      · exact ⟨before, name', after, rfl, hbefore, hmiss⟩
  · split_ifs with hfound
    · rintro rfl
      exact ⟨[], name, names, rfl, rfl, hfound ▸ hn⟩
    · rintro ⟨before, name', after, rfl, hbefore, hmiss⟩
      refine ⟨name :: before, name', after, rfl, ?_, hmiss⟩
      rw [resolve_cons, hn, ok_bind, if_neg hfound]
      exact hbefore

theorem resolve_append {before after : List Text} (h : s.resolve before dir = .ok (some stop)) :
    s.resolve (before ++ after) dir = s.resolve after stop := by
  induction before generalizing dir with
  | nil =>
    obtain rfl := Option.some.inj (Except.ok.inj h)
    rfl
  | cons name rest ih =>
    rw [resolve_cons] at h
    obtain ⟨n, hn, h⟩ := exists_of_bind_ok h
    rw [List.cons_append, resolve_cons, hn, ok_bind]
    split_ifs at h ⊢ with hfound
    · cases h
    · exact ih h

theorem StopsAt.resolve (h : s.StopsAt names dir stop) : s.resolve names dir = .ok none := by
  obtain ⟨before, name, after, rfl, hbefore, hmiss⟩ := h
  rw [resolve_append hbefore, resolve_cons, hmiss, ok_bind, if_pos rfl]

theorem descend_eq {r : Bool × Inode} : s.descend s.findFile names dir = .ok r ↔
    r.1 = true ∧ s.resolve names dir = .ok (some r.2) ∨
    r.1 = false ∧ s.StopsAt names dir r.2 := by
  induction names generalizing dir with
  | nil =>
    obtain ⟨found, stop⟩ := r
    rw [descend, Except.ok.injEq, Prod.mk.injEq]
    constructor
    · rintro ⟨rfl, rfl⟩
      exact .inl ⟨rfl, rfl⟩
    · rintro (⟨rfl, hstop⟩ | ⟨-, before, name, after, hnil, -⟩)
      · exact ⟨rfl, Option.some.inj (Except.ok.inj hstop)⟩
      · exact absurd hnil (by simp)
  | cons name rest ih =>
    cases hn : s.findFile dir name with
    | error e =>
      refine iff_of_false (fun heq => ?_) ?_
      · rw [descend, hn] at heq
        cases heq
      · rintro (⟨-, heq⟩ | ⟨-, hstop⟩)
        · rw [resolve_cons, hn] at heq
          cases heq
        · have heq := hstop.resolve
          rw [resolve_cons, hn] at heq
          cases heq
    | ok n =>
      rw [descend, resolve_cons, hn, ok_bind, ok_bind, stopsAt_cons hn]
      split_ifs with hfound
      · obtain ⟨found, stop⟩ := r
        simp [pure_eq_ok, eq_comm]
      · exact ih

end Descend

end FileSys

theorem pathSteps_self {path : Text} (h : path.countSlash ≤ 2) {r : Option (List Text)} :
    FileSys.pathSteps path path = .ok r ↔ path.Fits ∧ r = some path.names := by
  by_cases hslash : Text.slash ∈ path.bytes
  · exact pathSteps_eq_ok hslash h
  · rw [pathSteps_of_plain hslash, Text.names, Text.components_of_plain hslash]

/-- `do_cd` is all or nothing if and only if every name is found, or those before the first missing
one lead back to the record in `current_dir`. -/
theorem cd_exact_iff (s : FileSys) {path : Text} (h : path.countSlash ≤ 2) : s.CdsExactly path ↔
    path.Fits ∧ ((∃ dir, s.resolve path.names s.currentDir = .ok (some dir)) ∨
      s.StopsAt path.names s.currentDir s.currentDir) := by
  constructor
  · rintro ⟨r, hr, hcd⟩
    obtain ⟨steps, hsteps, hcd⟩ := exists_of_bind_ok hcd
    obtain ⟨hfits, rfl⟩ := (pathSteps_self h).mp hsteps
    obtain ⟨⟨found, stop⟩, hdescend, hcd⟩ := exists_of_bind_ok hcd
    have hstop : stop = r.getD s.currentDir := congrArg (·.currentDir) (Except.ok.inj hcd)
    obtain ⟨-, hall⟩ | ⟨-, hmiss⟩ := FileSys.descend_eq.mp hdescend
    · exact ⟨hfits, .inl ⟨stop, hall⟩⟩
    · obtain rfl := Except.ok.inj (hr.symm.trans hmiss.resolve)
      rw [hstop] at hmiss
      exact ⟨hfits, .inr hmiss⟩
  · rintro ⟨hfits, ⟨dir, hdir⟩ | hmiss⟩
    · refine ⟨some dir, hdir, ?_⟩
      rw [FileSys.doCd, (pathSteps_self h).mpr ⟨hfits, rfl⟩, ok_bind]
      dsimp only
      rw [(FileSys.descend_eq (r := (true, dir))).mpr (.inl ⟨rfl, hdir⟩), ok_bind]
      rfl
    · refine ⟨none, hmiss.resolve, ?_⟩
      rw [FileSys.doCd, (pathSteps_self h).mpr ⟨hfits, rfl⟩, ok_bind]
      dsimp only
      rw [(FileSys.descend_eq (r := (false, s.currentDir))).mpr (.inr ⟨rfl, hmiss⟩), ok_bind]
      rfl

/-! `mkdir ./a; mkdir a/b`. -/

def nestOps : List Op := [.mkdir (Text.dot.child .a) 0, .mkdir (Text.a.child .b) 0]

structure FileSys.Nest (s : FileSys) : Prop where
  here : s.currentDir.iNum = 0
  a : s.findFile s.currentDir .a = .ok 1
  aNum : (s.syncFromDiskInode 1).iNum = 1
  ab : s.findFile (s.syncFromDiskInode 1) .b = .ok 2
  aa : s.findFile (s.syncFromDiskInode 1) .a = .ok notFound
  b : s.findFile s.currentDir .b = .ok notFound

theorem exists_nest :
    ∃ s₀ s, FileSys.blank.doMkfs .blank = .ok s₀ ∧ runOps nestOps s₀ = .ok s ∧ s.Nest := by
  obtain ⟨s₀, s, v, hs₀, hs, -, hv, hp⟩ := exists_run_writesThrough nestOps
    (p := fun v => v.currentDir.iNum == 0 && (v.inode 1).iNum == 1 &&
      (v.findFile v.currentDir .a).toOption == some 1 &&
      (v.findFile (v.inode 1) .b).toOption == some 2 &&
      (v.findFile (v.inode 1) .a).toOption == some notFound &&
      (v.findFile v.currentDir .b).toOption == some notFound) (by decide +kernel)
  simp only [Bool.and_eq_true, beq_iff_eq, ← hv.currentDir_eq,
    show v.inode 1 = s.syncFromDiskInode 1 from hv.inode 1 (by omega)] at hp
  obtain ⟨⟨⟨⟨⟨hhere, hnum⟩, ha⟩, hab⟩, haa⟩, hb⟩ := hp
  have hfind : ∀ {i name n}, (v.findFile i name).toOption = some n → s.findFile i name = .ok n :=
    fun hn => eq_ok_of_refines (hv.findFile _ _) (eq_ok_of_toOption hn)
  exact ⟨s₀, s, hs₀, hs, hhere, hfind ha, hnum, hfind hab, hfind haa, hfind hb⟩

namespace FileSys.Nest
variable {s : FileSys} (h : s.Nest)
include h

theorem resolve_a (names : List Text) :
    s.resolve (.a :: names) s.currentDir = s.resolve names (s.syncFromDiskInode 1) := by
  rw [resolve_cons, h.a, ok_bind, if_neg (by decide)]

theorem stopsAt_aa : s.StopsAt [.a, .a] s.currentDir (s.syncFromDiskInode 1) :=
  ⟨[.a], .a, [], rfl, h.resolve_a [], h.aa⟩

theorem not_stopsAt_here {names : List Text} (hnames : names = [.a, .a]) :
    ¬ s.StopsAt names s.currentDir s.currentDir := by
  subst hnames
  rw [stopsAt_cons h.a, if_neg (by decide), stopsAt_cons h.aa, if_pos rfl]
  intro heq
  have hnum := h.aNum
  rw [← heq, h.here] at hnum
  exact absurd hnum (by decide)

end FileSys.Nest

theorem cd_exact_iff_nest : ∃ s₀ s, FileSys.blank.doMkfs .blank = .ok s₀ ∧
    runOps nestOps s₀ = .ok s ∧ s.CdsExactly (Text.a.child .b) ∧ s.CdsExactly (Text.b.child .a) ∧
    ¬ s.CdsExactly (Text.a.child .a) := by
  obtain ⟨s₀, s, hs₀, hs, h⟩ := exists_nest
  refine ⟨s₀, s, hs₀, hs, (cd_exact_iff s (by decide)).mpr ⟨?_, .inl ⟨s.syncFromDiskInode 2, ?_⟩⟩,
    (cd_exact_iff s (by decide)).mpr ⟨?_, .inr ⟨[], .b, [.a], by decide, rfl, h.b⟩⟩, fun hcd => ?_⟩
  · exact (Text.fits_child (by decide)).mpr (by decide)
  · rw [show (Text.a.child .b).names = [.a, .b] by decide, h.resolve_a, FileSys.resolve_cons, h.ab,
      ok_bind, if_neg (by decide)]
    rfl
  · exact (Text.fits_child (by decide)).mpr (by decide)
  · obtain ⟨-, ⟨dir, hdir⟩ | hstop⟩ := (cd_exact_iff s (by decide)).mp hcd
    · rw [show (Text.a.child .a).names = [.a, .a] by decide, h.stopsAt_aa.resolve] at hdir
      cases hdir
    · exact h.not_stopsAt_here (by decide) hstop

theorem cd_half_way : ∃ s₀ s t, FileSys.blank.doMkfs .blank = .ok s₀ ∧
    runOps nestOps s₀ = .ok s ∧
    s.resolve (Text.a.child .a).names s.currentDir = .ok none ∧ s.doCd (Text.a.child .a) = .ok t ∧
    s.currentDir.iNum = 0 ∧ t.currentDir.iNum = 1 ∧ ¬ s.CdsExactly (Text.a.child .a) := by
  obtain ⟨s₀, s, hs₀, hs, h⟩ := exists_nest
  have hnames : (Text.a.child .a).names = [.a, .a] := by decide
  have hfits : (Text.a.child .a).Fits := (Text.fits_child (by decide)).mpr (by decide)
  have hcd : s.doCd (Text.a.child .a) = .ok (s.inSession fun x =>
      { x with currentDir := s.syncFromDiskInode 1 }) := by
    rw [FileSys.doCd, (pathSteps_self (by decide)).mpr ⟨hfits, rfl⟩, ok_bind, hnames]
    dsimp only
    rw [(FileSys.descend_eq (r := (false, s.syncFromDiskInode 1))).mpr (.inr ⟨rfl, h.stopsAt_aa⟩),
      ok_bind]
    rfl
  refine ⟨s₀, s, _, hs₀, hs, hnames ▸ h.stopsAt_aa.resolve, hcd, h.here, h.aNum, ?_⟩
  rintro ⟨r, hr, hcd'⟩
  rw [hnames, h.stopsAt_aa.resolve] at hr
  obtain rfl := Except.ok.inj hr
  have hsame : s.syncFromDiskInode 1 = s.currentDir :=
    congrArg (·.currentDir) (Except.ok.inj (hcd.symm.trans hcd'))
  have hnum := h.aNum
  rw [hsame, h.here] at hnum
  exact absurd hnum (by decide)

end Ucas.Fs

import UcasOs.Fs.BlockMap

/-! `release_inode_block` on a file whose blocks lie in the layout of fs.h. The loops go through the
pointers in the order of the logical blocks and leave at the first that is zero; on a file without
holes that is the end of the file. -/

namespace Ucas.Fs
open Ucas.Lib

namespace Place

def offset : Nat → List Nat → Nat
  | height + 1, m :: rest => m * 1024 ^ height + offset height rest
  | _, _ => 0

def base : Fin 3 → Nat
  | 0 => 12
  | 1 => 1036
  | 2 => 1049612

/-- The logical block of a place, the first of those under it for a block of pointers. -/
def first : Place → Nat
  | direct k => k
  | indirect level path => base level + offset (level + 1) path

def ofIndex (idx : Nat) : Place :=
  if h : idx < 12 then direct ⟨idx, h⟩
  else indirect (if idx < 1036 then 0 else if idx < 1049612 then 1 else 2) (pathOf idx)

end Place

/-- Exactly the logical blocks below `n` are assigned, and the blocks of pointers with one of them
under them; all are distinct blocks of the card. -/
structure Dense (s : FileSys) (i : Inode) (n : Nat) : Prop where
  assigned : ∀ idx < maxBlockIndex, ((Place.ofIndex idx).value s i ≠ 0 ↔ idx < n)
  pointers : ∀ (level : Fin 3) (path : List Nat), path.length ≤ level → (∀ m ∈ path, m < 1024) →
    ((Place.indirect level path).value s i ≠ 0 ↔ (Place.indirect level path).first < n)
  block : ∀ P : Place, P.InLayout → P.value s i ≠ 0 → (P.value s i).toNat < 262144
  distinct : ∀ P Q : Place, P.InLayout → Q.InLayout → P.value s i ≠ 0 → P.value s i = Q.value s i →
    P = Q

def Inode.blocks (s : FileSys) (i : Inode) : Set Nat :=
  { k | ∃ P : Place, P.InLayout ∧ P.value s i ≠ 0 ∧ (P.value s i).toNat = k }

/-- The bits of `S` are cleared, and nothing else is changed. -/
structure Clears (S : Set Nat) (s t : FileSys) : Prop where
  rest : t = { s with blockbmp := t.blockbmp }
  bit : ∀ k, t.blockbmp.bit k = true ↔ s.blockbmp.bit k = true ∧ k ∉ S

namespace Clears
variable {S T : Set Nat} {s t u : FileSys}

theorem refl (s : FileSys) : Clears ∅ s s := ⟨rfl, fun _ => by simp⟩

theorem trans (h : Clears S s t) (h' : Clears T t u) : Clears (S ∪ T) s u := by
  refine ⟨?_, fun k => ?_⟩
  · rw [h'.rest, h.rest]
  · rw [h'.bit, h.bit, Set.mem_union, not_or, and_assoc]

theorem readBlock (h : Clears S s t) (p : UInt32) : t.readBlock p = s.readBlock p := by
  rw [h.rest]
  rfl

end Clears

theorem clears_unsetBlockBmp {s : FileSys} {p : UInt32} (hp : p.toNat < 262144) :
    ∃ t, s.unsetBlockBmp p = .ok t ∧ Clears {p.toNat} s t := by
  refine ⟨{ s with blockbmp := s.blockbmp.clearBit p.toNat }, if_pos hp, rfl, fun k => ?_⟩
  rw [Buffer.bit_clearBit _ _ hp]
  simp [and_comm]

namespace FileSys

def under (s : FileSys) (height : Nat) (p : UInt32) : Set Nat :=
  { k | ∃ path : List Nat, path.length ≤ height ∧ (∀ m ∈ path, m < 1024) ∧ s.follow p path ≠ 0 ∧
    (s.follow p path).toNat = k }

def Packed (s : FileSys) (n : Nat) (height : Nat) (p : UInt32) (b : Nat) : Prop :=
  ∀ path : List Nat, path.length ≤ height → (∀ m ∈ path, m < 1024) →
    (s.follow p path ≠ 0 ↔ b + Place.offset height path < n)

inductive Tiles (s : FileSys) (n : Nat) : Nat → List (Nat × UInt32) → Prop
  | nil {b : Nat} : s.Tiles n b []
  | cons {b height : Nat} {p : UInt32} {rest : List (Nat × UInt32)} (root : s.Packed n height p b)
      (tiles : s.Tiles n (b + 1024 ^ height) rest) : s.Tiles n b ((height, p) :: rest)

def underAll (s : FileSys) (trees : List (Nat × UInt32)) : Set Nat :=
  { k | ∃ tree ∈ trees, k ∈ s.under tree.1 tree.2 }

variable {s u : FileSys} {n b height : Nat} {p : UInt32} {trees : List (Nat × UInt32)}

theorem under_zero_block (height : Nat) : s.under height 0 = ∅ := by
  ext k
  simp [under, follow_zero]

theorem under_zero (hp : p ≠ 0) : s.under 0 p = {p.toNat} := by
  ext k
  constructor
  · rintro ⟨path, hlen, -, -, rfl⟩
    rw [List.length_eq_zero_iff.mp (Nat.le_zero.mp hlen)]
    rfl
  · rintro rfl
    exact ⟨[], le_rfl, by simp, hp, rfl⟩

def children (s : FileSys) (height : Nat) (p : UInt32) : List (Nat × UInt32) :=
  (List.range 1024).map fun m => (height, pointer (s.readBlock p) m)

theorem under_succ (hp : p ≠ 0) :
    s.under (height + 1) p = s.underAll (s.children height p) ∪ {p.toNat} := by
  ext k
  constructor
  · rintro ⟨path, hlen, hentries, hne, rfl⟩
    cases path with
    | nil => exact .inr rfl
    | cons m rest =>
      rw [follow, if_neg hp] at hne ⊢
      refine .inl ⟨_, List.mem_map.mpr ⟨m, List.mem_range.mpr (hentries m List.mem_cons_self), rfl⟩,
        rest,
        Nat.le_of_succ_le_succ hlen, fun m hm => hentries m (List.mem_cons_of_mem _ hm), hne, rfl⟩
  · rintro (⟨tree, htree, path, hlen, hentries, hne, rfl⟩ | rfl)
    · obtain ⟨m, hm, rfl⟩ := List.mem_map.mp htree
      refine ⟨m :: path, Nat.succ_le_succ hlen, ?_, ?_, ?_⟩
      · exact List.forall_mem_cons.mpr ⟨List.mem_range.mp hm, hentries⟩
      · rwa [follow, if_neg hp]
      · rw [follow, if_neg hp]
    · exact ⟨[], Nat.zero_le _, by simp, hp, rfl⟩

theorem underAll_cons (tree : Nat × UInt32) :
    s.underAll (tree :: trees) = s.under tree.1 tree.2 ∪ s.underAll trees := by
  ext k
  simp [underAll]

theorem underAll_of_zero (h : ∀ tree ∈ trees, tree.2 = 0) : s.underAll trees = ∅ := by
  ext k
  simp only [underAll, Set.mem_ofPred_eq, Set.mem_empty_iff_false, iff_false, not_exists, not_and]
  intro tree htree
  rw [h tree htree, under_zero_block]
  exact Set.notMem_empty k

theorem Packed.ne_zero_iff (h : s.Packed n height p b) : p ≠ 0 ↔ b < n := by
  have hroot := h [] (Nat.zero_le _) (by simp)
  rwa [follow, show Place.offset height [] = 0 by cases height <;> rfl] at hroot

theorem Packed.child (h : s.Packed n (height + 1) p b) (hp : p ≠ 0) {m : Nat} (hm : m < 1024) :
    s.Packed n height (pointer (s.readBlock p) m) (b + m * 1024 ^ height) := by
  intro path hlen hentries
  have hpath := h (m :: path) (Nat.succ_le_succ hlen) (List.forall_mem_cons.mpr ⟨hm, hentries⟩)
  rwa [follow, if_neg hp, Place.offset, ← Nat.add_assoc] at hpath

theorem tiles_map {cs : List UInt32}
    (h : ∀ (j : Nat) (hj : j < cs.length), s.Packed n height cs[j] (b + j * 1024 ^ height)) :
    s.Tiles n b (cs.map (height, ·)) := by
  induction cs generalizing b with
  | nil => exact .nil
  | cons c cs ih =>
    refine .cons (by simpa using h 0 (Nat.succ_pos _)) (ih fun j hj => ?_)
    have hnext := h (j + 1) (Nat.succ_lt_succ hj)
    rwa [Nat.succ_mul, Nat.add_comm (j * _), ← Nat.add_assoc] at hnext

theorem map_pointers :
    ((List.range 1024).map (pointer (s.readBlock p))).map (height, ·) = s.children height p := by
  simp only [children, List.map_map, Function.comp_def]

theorem Packed.children (h : s.Packed n (height + 1) p b) (hp : p ≠ 0) :
    s.Tiles n b (s.children height p) := by
  rw [← map_pointers]
  refine tiles_map fun m hm => ?_
  rw [List.getElem_map, List.getElem_range]
  exact h.child hp (by simpa using hm)

theorem Tiles.zero (h : s.Tiles n b trees) (hb : n ≤ b) : ∀ tree ∈ trees, tree.2 = 0 := by
  induction trees generalizing b with
  | nil => simp
  | cons tree trees ih =>
    cases h with | cons hroot hrest
    refine List.forall_mem_cons.mpr ⟨?_, ih hrest (hb.trans (Nat.le_add_right ..))⟩
    by_contra hne
    exact absurd (hroot.ne_zero_iff.mp hne) (by omega)

theorem releaseEach_tiles {release : UInt32 → FileSys → Except Fault (Bool × FileSys)}
    {cs : List UInt32}
    (htree : ∀ c b u, s.Packed n height c b → c ≠ 0 → (∀ p, u.readBlock p = s.readBlock p) →
      (∀ k ∈ s.under height c, k < 262144) → ∃ t, release c u = .ok (decide (n < b + 1024 ^ height),
      t) ∧
        Clears (s.under height c) u t)
    (htiles : s.Tiles n b (cs.map (height, ·))) (hb : b ≤ n) (hread : ∀ p, u.readBlock
    p = s.readBlock p)
    (hlt : ∀ k ∈ s.underAll (cs.map (height, ·)), k < 262144) :
    ∃ t, releaseEach release cs u = .ok (decide (n < b + cs.length * 1024 ^ height), t) ∧
      Clears (s.underAll (cs.map (height, ·))) u t := by
  have hpos : 0 < 1024 ^ height := Nat.pow_pos (by decide)
  induction cs generalizing b u with
  | nil =>
    refine ⟨u, ?_, ?_⟩
    · rw [releaseEach, List.length_nil, Nat.zero_mul, decide_eq_false (by omega)]
    · rw [List.map_nil, underAll_of_zero (by simp)]
      exact .refl u
  | cons c cs ih =>
    cases htiles with | cons hroot hrest
    rw [List.map_cons, underAll_cons] at hlt ⊢
    dsimp only at hlt ⊢
    rw [List.length_cons, Nat.succ_mul]
    by_cases hc : c = 0
    · -- the file ends in front of this tree
      have hend : n ≤ b := Nat.not_lt.mp fun hlt => (hroot.ne_zero_iff.mpr hlt) hc
      refine ⟨u, ?_, ?_⟩
      · rw [releaseEach, if_pos hc, decide_eq_true (by omega)]
      · rw [hc, under_zero_block, Set.empty_union, underAll_of_zero (hrest.zero (by omega))]
        exact .refl u
    obtain ⟨t, hstep, hclears⟩ := htree c b u hroot hc hread fun k hk => hlt k (.inl hk)
    rw [releaseEach, if_neg hc, hstep, ok_bind]
    dsimp only
    by_cases hstop : n < b + 1024 ^ height
    · -- and here inside it
      refine ⟨t, ?_, ?_⟩
      · rw [if_pos (decide_eq_true hstop), decide_eq_true (by omega)]
        rfl
      · rwa [underAll_of_zero (hrest.zero (by omega)), Set.union_empty]
    · obtain ⟨t', hloop, hclears'⟩ := ih hrest (by omega) (fun p => (hclears.readBlock p).trans
        (hread p))
        fun k hk => hlt k (.inr hk)
      refine ⟨t', ?_, hclears.trans hclears'⟩
      rw [if_neg (by simpa using hstop), hloop, Nat.add_assoc, Nat.add_comm (1024 ^ height)]

theorem releaseTree_packed (h : s.Packed n height p b) (hp : p ≠ 0)
    (hread : ∀ p, u.readBlock p = s.readBlock p)
    (hlt : ∀ k ∈ s.under height p, k < 262144) :
    ∃ t, releaseTree height p u = .ok (decide (n < b + 1024 ^ height), t) ∧
    Clears (s.under height p) u t := by
  have hpmem : p.toNat ∈ s.under height p := ⟨[], Nat.zero_le _, by simp, hp, rfl⟩
  have hb : b < n := h.ne_zero_iff.mp hp
  induction height generalizing p b u with
  | zero =>
    obtain ⟨t, ht, hclears⟩ := clears_unsetBlockBmp (s := u) (hlt _ hpmem)
    refine ⟨t, ?_, ?_⟩
    · rw [releaseTree, ht, ok_bind, decide_eq_false (by rw [pow_zero]; omega)]
      rfl
    · rwa [under_zero hp]
  | succ height ih =>
    have htiles := h.children hp
    have hchildren : ∀ k ∈ s.underAll (s.children height p), k < 262144 := fun k hk =>
      hlt k (by rw [under_succ hp]; exact .inl hk)
    rw [← map_pointers] at htiles hchildren
    obtain ⟨t, ht, hclears⟩ := releaseEach_tiles (fun c b u hc hne hread hlt =>
      ih hc hne hread hlt ⟨[], Nat.zero_le _, by simp, hne, rfl⟩ (hc.ne_zero_iff.mp hne)) htiles
        hb.le hread hchildren
    obtain ⟨t', ht', hclears'⟩ := clears_unsetBlockBmp (s := t) (hlt _ hpmem)
    refine ⟨t', ?_, ?_⟩
    · rw [releaseTree]
      dsimp only
      rw [hread, ht, ok_bind]
      dsimp only
      rw [ht', ok_bind, List.length_map, List.length_range, Nat.pow_succ, Nat.mul_comm 1024]
      rfl
    · rw [under_succ hp]
      rw [map_pointers] at hclears
      exact hclears.trans hclears'

theorem releaseIndirect_tiles (htiles : s.Tiles n b trees) (hb : b ≤ n)
    (hread : ∀ p, u.readBlock p = s.readBlock p)
    (hlt : ∀ k ∈ s.underAll trees, k < 262144) :
    ∃ t, releaseIndirect trees u = .ok t ∧ Clears (s.underAll trees) u t := by
  induction trees generalizing b u with
  | nil =>
    rw [underAll_of_zero (by simp)]
    exact ⟨u, rfl, .refl u⟩
  | cons tree trees ih =>
    cases htiles with | @cons _ height p _ hroot hrest
    rw [underAll_cons] at hlt ⊢
    dsimp only at hlt ⊢
    by_cases hp : p = 0
    · have hend : n ≤ b := Nat.not_lt.mp fun hlt => (hroot.ne_zero_iff.mpr hlt) hp
      rw [hp, under_zero_block, Set.empty_union, underAll_of_zero
        (hrest.zero (hend.trans (Nat.le_add_right ..))),
        releaseIndirect, if_pos rfl]
      exact ⟨u, rfl, .refl u⟩
    obtain ⟨t, ht, hclears⟩ := releaseTree_packed hroot hp hread fun k hk => hlt k (.inl hk)
    rw [releaseIndirect, if_neg hp, ht, ok_bind]
    dsimp only
    by_cases hstop : n < b + 1024 ^ height
    · rw [if_pos (decide_eq_true hstop), underAll_of_zero (hrest.zero (by omega)), Set.union_empty]
      exact ⟨t, rfl, hclears⟩
    · rw [if_neg (by simpa using hstop)]
      obtain ⟨t', ht', hclears'⟩ := ih hrest (by omega) (fun p => (hclears.readBlock p).trans
        (hread p))
        fun k hk => hlt k (.inr hk)
      exact ⟨t', ht', hclears.trans hclears'⟩

end FileSys

theorem pathOf_third {k m w : Nat} (hk : k < 1024) (hm : m < 1024) (hw : w < 1024) :
    pathOf (1049612 + 1048576 * k + 1024 * m + w) = [k, m, w] := by
  have hsub : 1049612 + 1048576 * k + 1024 * m + w - 1049612 = 1048576 * k + 1024 * m + w := by
    omega
  rw [pathOf, if_neg (by omega), if_neg (by omega), hsub, show (1048576 * k + 1024 * m + w) /
    (1024 * 1024) = k by omega,
    show (1048576 * k + 1024 * m + w) % (1024 * 1024) / 1024 = m by omega,
    show (1048576 * k + 1024 * m + w) % 1024 = w by omega]

namespace Dense
variable {s : FileSys} {i : Inode} {n : Nat}

def trees (i : Inode) : List (Nat × UInt32) :=
  [(1, i.iIndirectBlock1Ptr), (2, i.iIndirectBlock2Ptr), (3, i.iIndirectBlock3Ptr)]

theorem place (h : Dense s i n) {P : Place} (hP : P.InLayout) : P.value s i ≠ 0 ↔ P.first < n := by
  cases P with
  | direct k =>
    have hk := h.assigned k (by have := k.isLt; rw [maxBlockIndex]; omega)
    rwa [Place.ofIndex, dif_pos k.isLt] at hk
  | indirect level path =>
    obtain ⟨hlen, hentries⟩ := hP
    by_cases hpointers : path.length ≤ level
    · exact h.pointers level path hpointers hentries
    -- a path of full length is the one to its logical block
    have hfirst : (Place.indirect level path).first < maxBlockIndex ∧
        Place.ofIndex (Place.indirect level path).first = .indirect level path := by
      have hlen : path.length = level + 1 := by omega
      obtain rfl | rfl | rfl := Place.level_cases level
      · obtain ⟨k, rfl⟩ := List.length_eq_one_iff.mp hlen
        have hk := hentries k (by simp)
        have hidx : (Place.indirect 0 [k]).first = 12 + k := by
          simp [Place.first, Place.base, Place.offset]
        rw [hidx, Place.ofIndex, dif_neg (by omega), pathOf_first hk, if_pos (by omega),
          maxBlockIndex]
        exact ⟨by omega, rfl⟩
      · obtain ⟨k, m, rfl⟩ := List.length_eq_two.mp hlen
        have hk := hentries k (by simp)
        have hm := hentries m (by simp)
        have hidx : (Place.indirect 1 [k, m]).first = 1036 + 1024 * k + m := by
          simp [Place.first, Place.base, Place.offset]
          omega
        rw [hidx, Place.ofIndex, dif_neg (by omega), pathOf_second hk hm, if_neg (by omega), if_pos
          (by omega), maxBlockIndex]
        exact ⟨by omega, rfl⟩
      · obtain ⟨k, m, w, rfl⟩ := List.length_eq_three.mp hlen
        have hk := hentries k (by simp)
        have hm := hentries m (by simp)
        have hw := hentries w (by simp)
        have hidx : (Place.indirect 2 [k, m, w]).first = 1049612 + 1048576 * k + 1024 * m + w := by
          simp [Place.first, Place.base, Place.offset]
          omega
        rw [hidx, Place.ofIndex, dif_neg (by omega), pathOf_third hk hm hw, if_neg (by omega),
          if_neg (by omega), maxBlockIndex]
        exact ⟨by omega, rfl⟩
    rw [← hfirst.2, h.assigned _ hfirst.1, hfirst.2]

theorem direct (h : Dense s i n) :
    s.Tiles n 0 (((List.finRange 12).map i.iDirectTable).map (0, ·)) := by
  refine FileSys.tiles_map fun j hj path hlen _ => ?_
  rw [List.length_eq_zero_iff.mp (Nat.le_zero.mp hlen), List.getElem_map]
  have hplace := h.place (P := .direct ⟨j, by simpa using hj⟩) trivial
  simpa [FileSys.follow, Place.value, Place.first, Place.offset] using hplace

theorem indirect (h : Dense s i n) : s.Tiles n 12 (trees i) := by
  have hlevel : ∀ level : Fin 3, s.Packed n (level + 1) (i.indirectPtr level) (Place.base level) :=
    fun level path hlen hentries => h.place (P := .indirect level path) ⟨hlen, hentries⟩
  exact .cons (hlevel 0) (.cons (hlevel 1) (.cons (hlevel 2) .nil))

end Dense

theorem Inode.blocks_eq (s : FileSys) (i : Inode) : i.blocks s =
    s.underAll (((List.finRange 12).map i.iDirectTable).map (0, ·)) ∪ s.underAll (Dense.trees i) :=
    by
  ext k
  constructor
  · rintro ⟨P, hP, hne, rfl⟩
    cases P with
    | direct j =>
      refine .inl ⟨(0, i.iDirectTable j), by simp, [], le_rfl, by simp, hne, rfl⟩
    | indirect level path =>
      refine .inr ⟨(level + 1, i.indirectPtr level), ?_, path, hP.1, hP.2, hne, rfl⟩
      match level with
      | 0 => simp [Dense.trees, indirectPtr]
      | 1 => simp [Dense.trees, indirectPtr]
      | 2 => simp [Dense.trees, indirectPtr]
  · rintro (⟨tree, htree, path, hlen, hentries, hne, rfl⟩ | ⟨tree, htree, path, hlen, hentries, hne,
      rfl⟩)
    · obtain ⟨j, rfl⟩ : ∃ j, (0, i.iDirectTable j) = tree := by simpa using htree
      obtain rfl := List.length_eq_zero_iff.mp (Nat.le_zero.mp hlen)
      exact ⟨.direct j, trivial, hne, rfl⟩
    · obtain ⟨level, rfl⟩ : ∃ level : Fin 3, tree = (level.val + 1, i.indirectPtr level) := by
        simp only [Dense.trees, List.mem_cons, List.not_mem_nil, or_false] at htree
        obtain rfl | rfl | rfl := htree
        · exact ⟨0, rfl⟩
        · exact ⟨1, rfl⟩
        · exact ⟨2, rfl⟩
      exact ⟨.indirect level path, ⟨hlen, hentries⟩, hne, rfl⟩

/-- Releasing a file without holes clears the bits of its blocks and of its blocks of pointers, and
nothing else. -/
theorem release_exact {s : FileSys} {i : Inode} {n : Nat} (h : Dense s i n) :
    ∃ t, s.releaseInodeBlock i = .ok t ∧ Clears (i.blocks s) s t := by
  have hlt : ∀ k ∈ i.blocks s, k < 262144 := by
    rintro k ⟨P, hP, hne, rfl⟩
    exact h.block P hP hne
  rw [Inode.blocks_eq] at hlt ⊢
  obtain ⟨t, ht, hclears⟩ := FileSys.releaseEach_tiles (u := s) (fun _ _ _ =>
    FileSys.releaseTree_packed) h.direct
    (Nat.zero_le n) (fun _ => rfl) fun k hk => hlt k (.inl hk)
  rw [FileSys.releaseInodeBlock, ht, ok_bind]
  dsimp only
  by_cases hstop : n < 12
  · rw [if_pos (decide_eq_true (by simpa using hstop)), FileSys.underAll_of_zero
      (h.indirect.zero hstop.le), Set.union_empty]
    exact ⟨t, rfl, hclears⟩
  · rw [if_neg (by simpa using hstop)]
    obtain ⟨t', ht', hclears'⟩ := FileSys.releaseIndirect_tiles h.indirect (by omega)
      hclears.readBlock
      fun k hk => hlt k (.inr hk)
    exact ⟨t', ht', hclears.trans hclears'⟩

theorem Place.ofIndex_spec {idx : Nat} (hlt : idx < maxBlockIndex) :
    (Place.ofIndex idx).InLayout ∧ (Place.ofIndex idx).first = idx := by
  rw [maxBlockIndex] at hlt
  unfold Place.ofIndex pathOf
  split_ifs with h12 h1 h2
  · exact ⟨trivial, rfl⟩
  · refine ⟨⟨by simp, by simp; omega⟩, ?_⟩
    simp [first, base, offset]
    omega
  · refine ⟨⟨by simp, by simp; omega⟩, ?_⟩
    simp [first, base, offset]
    omega
  · refine ⟨⟨by simp, by simp; omega⟩, ?_⟩
    simp [first, base, offset]
    omega

theorem Dense.of_place {s : FileSys} {i : Inode} {n : Nat}
    (hplace : ∀ P : Place, P.InLayout → (P.value s i ≠ 0 ↔ P.first < n))
    (hblock : ∀ P : Place, P.InLayout → P.value s i ≠ 0 → (P.value s i).toNat < 262144)
    (hdistinct : ∀ P Q : Place, P.InLayout → Q.InLayout → P.value s i ≠ 0 →
      P.value s i = Q.value s i → P = Q) : Dense s i n := by
  refine ⟨fun idx hidx => ?_, fun level path hlen hentries => ?_, hblock, hdistinct⟩
  · obtain ⟨hin, hfirst⟩ := Place.ofIndex_spec hidx
    rw [hplace _ hin, hfirst]
  · exact hplace (.indirect level path) ⟨by omega, hentries⟩

/-! A file of 1038 blocks on a card without a free one: the first block of pointers is full, and
two blocks are under the second level. -/

namespace Large

def firstPointers : Block := .ofWords fun m => UInt32.ofNat (312 + m)

def secondPointers : Block := .ofWords fun m => if m = 0 then 272 else 0

def lastPointers : Block := .ofWords fun m => if m < 2 then UInt32.ofNat (1336 + m) else 0

def card : FileSys :=
  { ((FileSys.blank.writeBlock 270 firstPointers).writeBlock 271 secondPointers).writeBlock 272
      lastPointers with blockbmp := .ofFn fun _ => 255 }

def file : Inode :=
  { zeroInode with
    iDirectTable := fun k => UInt32.ofNat (300 + k)
    iIndirectBlock1Ptr := 270
    iIndirectBlock2Ptr := 271
    iIndirectBlock3Ptr := 0 }

def number : Place → Nat
  | .direct k => 300 + k
  | .indirect 0 [] => 270
  | .indirect 0 [m] => 312 + m
  | .indirect 1 [] => 271
  | .indirect 1 [m] => if m = 0 then 272 else 0
  | .indirect 1 [m, w] => if m = 0 ∧ w < 2 then 1336 + w else 0
  | _ => 0

theorem place_cases {P : Place} (hP : P.InLayout) :
    (∃ k, P = .direct k) ∨ P = .indirect 0 [] ∨ (∃ m < 1024, P = .indirect 0 [m]) ∨
      P = .indirect 1 [] ∨ (∃ m < 1024, P = .indirect 1 [m]) ∨
      (∃ m < 1024, ∃ w < 1024, P = .indirect 1 [m, w]) ∨ ∃ path, P = .indirect 2 path := by
  cases P with
  | direct k => exact .inl ⟨k, rfl⟩
  | indirect level path =>
    obtain ⟨hlen, hentries⟩ := hP
    obtain rfl | rfl | rfl := Place.level_cases level
    · rcases path with _ | ⟨m, _ | ⟨w, rest⟩⟩
      · simp
      · have hm := hentries m (by simp)
        simpa using hm
      · simp at hlen
    · rcases path with _ | ⟨m, _ | ⟨w, _ | ⟨u, rest⟩⟩⟩
      · simp
      · have hm := hentries m (by simp)
        simpa using hm
      · have hm := hentries m (by simp)
        have hw := hentries w (by simp)
        simpa using ⟨hm, hw⟩
      · simp at hlen
    · simp

theorem readBlock_eq : card.readBlock 270 = firstPointers ∧ card.readBlock 271 = secondPointers ∧
    card.readBlock 272 = lastPointers := by
  have hread : ∀ p, card.readBlock p =
      (((FileSys.blank.writeBlock 270 firstPointers).writeBlock 271 secondPointers).writeBlock 272
        lastPointers).readBlock p := fun _ => rfl
  refine ⟨?_, ?_, ?_⟩
  · rw [hread, FileSys.readBlock_writeBlock, if_neg (by decide), FileSys.readBlock_writeBlock,
      if_neg (by decide), FileSys.readBlock_writeBlock, if_pos rfl]
  · rw [hread, FileSys.readBlock_writeBlock, if_neg (by decide), FileSys.readBlock_writeBlock,
      if_pos rfl]
  · rw [hread, FileSys.readBlock_writeBlock, if_pos rfl]

theorem follow_first {m : Nat} (hm : m < 1024) : card.follow 270 [m] = UInt32.ofNat (312 + m) := by
  rw [FileSys.follow, if_neg (by decide), readBlock_eq.1, FileSys.follow, FileSys.pointer,
    firstPointers, Buffer.word_ofWords _ (by omega)]

theorem follow_second {m : Nat} (hm : m < 1024) (rest : List Nat) :
    card.follow 271 (m :: rest) = if m = 0 then card.follow 272 rest else 0 := by
  rw [FileSys.follow, if_neg (by decide), readBlock_eq.2.1, FileSys.pointer, secondPointers,
    Buffer.word_ofWords _ (by omega)]
  split_ifs
  · rfl
  · exact card.follow_zero rest

theorem follow_last {w : Nat} (hw : w < 1024) :
    card.follow 272 [w] = if w < 2 then UInt32.ofNat (1336 + w) else 0 := by
  rw [FileSys.follow, if_neg (by decide), readBlock_eq.2.2, FileSys.follow, FileSys.pointer,
    lastPointers, Buffer.word_ofWords _ (by omega)]

theorem value_eq {P : Place} (hP : P.InLayout) :
    P.value card file = UInt32.ofNat (number P) := by
  obtain ⟨k, rfl⟩ | rfl | ⟨m, hm, rfl⟩ | rfl | ⟨m, hm, rfl⟩ | ⟨m, hm, w, hw, rfl⟩ | ⟨path, rfl⟩ :=
    place_cases hP
  · rfl
  · rfl
  · exact follow_first hm
  · rfl
  · refine (follow_second hm []).trans ?_
    rw [number]
    split_ifs <;> rfl
  · refine (follow_second hm [w]).trans ?_
    rw [follow_last hw, number]
    by_cases hm0 : m = 0 <;> by_cases hw2 : w < 2 <;> simp [hm0, hw2]
  · exact (card.follow_zero path).trans rfl

/-- The place of block `k`. -/
def placeAt (k : Nat) : Place :=
  if k = 270 then .indirect 0 []
  else if k = 271 then .indirect 1 []
  else if k = 272 then .indirect 1 [0]
  else if k < 312 then .direct (Fin.ofNat 12 (k - 300))
  else if k < 1336 then .indirect 0 [k - 312]
  else .indirect 1 [0, k - 1336]

def Used (k : Nat) : Prop := k = 270 ∨ k = 271 ∨ k = 272 ∨ 300 ≤ k ∧ k < 1338

theorem number_spec {P : Place} (hP : P.InLayout) (hne : number P ≠ 0) :
    Used (number P) ∧ placeAt (number P) = P := by
  obtain ⟨k, rfl⟩ | rfl | ⟨m, hm, rfl⟩ | rfl | ⟨m, hm, rfl⟩ | ⟨m, hm, w, hw, rfl⟩ | ⟨path, rfl⟩ :=
    place_cases hP
  · have hk := k.isLt
    refine ⟨.inr (.inr (.inr ⟨by simp [number], by simp [number]; omega⟩)), ?_⟩
    rw [number, placeAt, if_neg (by omega), if_neg (by omega), if_neg (by omega), if_pos (by omega),
      Nat.add_sub_cancel_left]
    exact congrArg _ (Fin.ofNat_val_eq_self k)
  · exact ⟨.inl rfl, rfl⟩
  · refine ⟨.inr (.inr (.inr ⟨by simp [number]; omega, by simp [number]; omega⟩)), ?_⟩
    rw [number, placeAt, if_neg (by omega), if_neg (by omega), if_neg (by omega), if_neg (by omega),
      if_pos (by omega), Nat.add_sub_cancel_left]
  · exact ⟨.inr (.inl rfl), rfl⟩
  · obtain rfl : m = 0 := by
      by_contra hm0
      exact hne (if_neg hm0)
    exact ⟨.inr (.inr (.inl rfl)), rfl⟩
  · obtain ⟨rfl, hw2⟩ : m = 0 ∧ w < 2 := by
      by_contra hboth
      exact hne (if_neg hboth)
    rw [number, if_pos ⟨rfl, hw2⟩]
    refine ⟨.inr (.inr (.inr ⟨by omega, by omega⟩)), ?_⟩
    rw [placeAt, if_neg (by omega), if_neg (by omega), if_neg (by omega), if_neg (by omega),
      if_neg (by omega), Nat.add_sub_cancel_left]
  · exact absurd rfl hne

theorem number_placeAt {k : Nat} (hk : Used k) : (placeAt k).InLayout ∧ number (placeAt k) = k := by
  obtain rfl | rfl | rfl | ⟨hge, hlt⟩ := hk
  · exact ⟨⟨by decide, by decide⟩, rfl⟩
  · exact ⟨⟨by decide, by decide⟩, rfl⟩
  · exact ⟨⟨by decide, by decide⟩, rfl⟩
  · rw [placeAt, if_neg (by omega), if_neg (by omega), if_neg (by omega)]
    split_ifs with h312 h1336
    · refine ⟨trivial, ?_⟩
      simp [number, Fin.ofNat]
      omega
    · refine ⟨⟨by simp, by simp; omega⟩, ?_⟩
      simp [number]
      omega
    · refine ⟨⟨by simp, by simp; omega⟩, ?_⟩
      rw [number, if_pos ⟨rfl, by omega⟩]
      omega

theorem number_ne_zero_iff {P : Place} (hP : P.InLayout) : number P ≠ 0 ↔ P.first < 1038 := by
  obtain ⟨k, rfl⟩ | rfl | ⟨m, hm, rfl⟩ | rfl | ⟨m, hm, rfl⟩ | ⟨m, hm, w, hw, rfl⟩ | ⟨path, rfl⟩ :=
    place_cases hP
  all_goals simp [number, Place.first, Place.base, Place.offset]
  all_goals omega

theorem value_ne_zero_iff {P : Place} (hP : P.InLayout) :
    (P.value card file ≠ 0 ↔ number P ≠ 0) ∧ (P.value card file).toNat = number P := by
  have hlt : number P < 4294967296 := by
    by_cases hne : number P = 0
    · omega
    · obtain h | h | h | h := (number_spec hP hne).1 <;> omega
  have hnat := toNat_ofNat_of_lt hlt
  rw [value_eq hP, hnat, ← UInt32.toNat_inj.ne, hnat]
  exact ⟨Iff.rfl, rfl⟩

theorem dense : Dense card file 1038 := by
  refine .of_place (fun P hP => ?_) (fun P hP hne => ?_) fun P Q hP hQ hne heq => ?_
  · rw [(value_ne_zero_iff hP).1, number_ne_zero_iff hP]
  · rw [(value_ne_zero_iff hP).2]
    obtain h | h | h | h := (number_spec hP ((value_ne_zero_iff hP).1.mp hne)).1 <;> omega
  · have hnum : number P = number Q := by
      rw [← (value_ne_zero_iff hP).2, heq, (value_ne_zero_iff hQ).2]
    rw [← (number_spec hP ((value_ne_zero_iff hP).1.mp hne)).2, hnum,
      (number_spec hQ ((value_ne_zero_iff hQ).1.mp (heq ▸ hne))).2]

theorem mem_blocks {k : Nat} : k ∈ file.blocks card ↔ Used k := by
  constructor
  · rintro ⟨P, hP, hne, rfl⟩
    rw [(value_ne_zero_iff hP).2]
    exact (number_spec hP ((value_ne_zero_iff hP).1.mp hne)).1
  · intro hk
    obtain ⟨hP, hnum⟩ := number_placeAt hk
    have hne : k ≠ 0 := by
      obtain h | h | h | h := hk <;> omega
    refine ⟨placeAt k, hP, (value_ne_zero_iff hP).1.mpr (hnum.symm ▸ hne), ?_⟩
    rw [(value_ne_zero_iff hP).2, hnum]

theorem bit_card {k : Nat} (hk : k < 262144) : card.blockbmp.bit k = true := by
  have hfull : card.blockbmp = .ofFn fun _ => 255 := rfl
  refine Buffer.bit_of_byte_full ?_
  rw [hfull, Buffer.get_ofFn, if_pos (by omega)]

end Large

theorem release_exact_second_level : ∃ t, Dense Large.card Large.file 1038 ∧
    Large.card.releaseInodeBlock Large.file = .ok t ∧
    ∀ k < 262144, Large.card.blockbmp.bit k = true ∧
      (t.blockbmp.bit k = false ↔ k = 270 ∨ k = 271 ∨ k = 272 ∨ 300 ≤ k ∧ k < 1338) := by
  obtain ⟨t, ht, hclears⟩ := release_exact Large.dense
  refine ⟨t, Large.dense, ht, fun k hk => ⟨Large.bit_card hk, ?_⟩⟩
  rw [← Bool.not_eq_true, hclears.bit, Large.mem_blocks, not_and_not_right]
  exact ⟨fun h => h (Large.bit_card hk), fun h _ => h⟩

end Ucas.Fs

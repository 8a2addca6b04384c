import UcasOs.Fs.Listing

/-! Trees of directories. As long as every entry is appended under a new name to a directory that is
there, each directory is a list of entries in blocks of its own, and a lookup sees the first 32 of
them. -/

namespace Ucas.Fs
open Ucas.Lib

theorem sIsdir_sIfreg (mode : UInt16) : sIsdir (sIfreg ||| mode) = false := by
  rw [sIsdir, beq_eq_false_iff_ne]
  intro heq
  have hbit := congrArg (fun m : UInt16 => m.toBitVec.getLsbD 15) heq
  simp [sIfreg, sIfmt, sIfdir] at hbit

structure Dir (v : Volume) (q : Nat) (L : List (Text × UInt32)) :
    Prop extends Lists v (v.inode q) L where
  lt : q < 8192
  inodeBit : v.inodeBit q = true
  num : (v.inode q).iNum.toNat = q
  mode : sIsdir (v.inode q).iFmode = true
  blockBit : ∀ k : Fin 12, 32 * k.val < L.length → v.blockBit ((v.inode q).iDirectTable k).toNat =
    true
  number : ∀ x ∈ L, x.2.toNat ∈ taken v
  name : ∀ x ∈ L, x.1.bytes ≠ []
  distinct : (L.map Prod.fst).Nodup

theorem Dir.frame {v u : Volume} {q : Nat} {L : List (Text × UInt32)} (h : Dir v q L)
    (hinode : u.inode q = v.inode q)
    (hblock : ∀ k : Fin 12, 32 * k.val < L.length →
      u.block ((v.inode q).iDirectTable k).toNat = v.block ((v.inode q).iDirectTable k).toNat)
    (hinodeBit : ∀ p, v.inodeBit p = true → u.inodeBit p = true)
    (hblockBit : ∀ k, v.blockBit k = true → u.blockBit k = true) : Dir u q L := by
  refine ⟨?_, h.lt, hinodeBit _ h.inodeBit, ?_, ?_, fun k hk => ?_, fun x hx => ?_, h.name,
    h.distinct⟩
  · rw [hinode]
    exact h.toLists.frame hblock
  · rw [hinode]
    exact h.num
  · rw [hinode]
    exact h.mode
  · rw [hinode]
    exact hblockBit _ (h.blockBit k hk)
  · exact ⟨(h.number x hx).1, hinodeBit _ (h.number x hx).2⟩

theorem Dir.stores {v : Volume} {q : Nat} {L : List (Text × UInt32)} (h : Dir v q L) {d : Dentry}
    {r : Inode × Volume}
    (hr : Volume.Wrote v (v.inode q) ((v.inode q).iFnum + 2) d r) : r.2.inode q = r.1 := by
  have hle : 2 ≤ (v.inode q).iFnum + 2 := UInt32.le_iff_toNat_le.mpr (by
    rw [h.slot_toNat, ← h.count]
    simp)
  rw [← (hr.stores ⟨hle, UInt32.le_refl _⟩).1, h.num]

theorem Dir.new {v : Volume} {q b : Nat} {n : UInt32} {e : Env} {fmode : UInt16} {fsize : UInt32}
    (hinode : v.inode q = newInode e fmode fsize (UInt32.ofNat b) (UInt32.ofNat q))
    (hmode : sIsdir fmode = true)
    (hb : b ∈ dataBlocks) (hblock : v.block b = directoryBlock (UInt32.ofNat q) n)
    (hq : q ∈ taken v)
    (hbit : v.blockBit b = true) (hn : n.toNat ∈ taken v) :
    Dir v q [(.dot, UInt32.ofNat q), (.dotdot, n)] := by
  have hnat : (UInt32.ofNat b).toNat = b := toNat_of_mem_dataBlocks hb
  have hnum : (UInt32.ofNat q).toNat = q := toNat_ofNat_of_lt (by have := hq.1; omega)
  have htable : ∀ k, (v.inode q).iDirectTable k = Function.update (fun _ => (0 : UInt32)) 0
      (UInt32.ofNat b) k := fun k => by
    rw [hinode]
    rfl
  have hfirst : ((v.inode q).iDirectTable 0).toNat = b := by rw [htable, Function.update_self, hnat]
  have hzero : ∀ k : Fin 12, 32 * k.val < 2 → k = 0 := fun k hk => Fin.ext (by simp; omega)
  refine ⟨⟨?_, by simp, fun k hk => ?_, fun k hk => ?_, fun k hk j hj => ?_⟩, hq.1, hq.2, ?_, ?_,
    fun k hk => ?_,
    ?_, ?_, ?_⟩
  · rw [hinode]
    rfl
  · rw [hzero k hk, hfirst]
    exact hb
  · rw [htable, Function.update_of_ne]
    rintro rfl
    exact absurd hk (by simp)
  · rw [hzero k hk, hfirst, hblock, dentryAt_directoryBlock _ _ hj]
    split_ifs with h1 h0
    · subst h1
      exact reads_fill (by decide)
    · subst h0
      exact reads_fill (by decide)
    · rw [List.getD_eq_default _ _ (by simp; omega)]
      exact reads_zero
  · rw [hinode]
    exact hnum
  · rw [hinode]
    exact hmode
  · rw [hzero k hk, hfirst]
    exact hbit
  · simp only [List.mem_cons, List.not_mem_nil, or_false]
    rintro x (rfl | rfl)
    · rwa [hnum]
    · exact hn
  · simp only [List.mem_cons, List.not_mem_nil, or_false]
    rintro x (rfl | rfl)
    · exact (by decide : Text.dot.bytes ≠ [])
    · exact (by decide : Text.dotdot.bytes ≠ [])
  · simp only [List.map_cons, List.map_nil]
    decide

theorem Dir.made {v u : Volume} {e : Env} {fmode : UInt16} {n : UInt32} {q : Nat}
    (hlow : ∀ k, k < 266 → v.blockBit k = true)
    (hmode : sIsdir fmode = true) (hn : n.toNat ∈ taken v)
    (hmade : Volume.Made e v fmode (some fun q => directoryBlock q n) q u) :
    Dir u q [(.dot, UInt32.ofNat q), (.dotdot, n)] := by
  obtain ⟨hlt, -, hbit⟩ := hmade.inodeBit
  have hn' : n.toNat ∈ taken u := ⟨hn.1, by
    rw [hbit, Function.update_apply]
    split_ifs
    · rfl
    · exact hn.2⟩
  cases hmade with
  | @withBlock _ _ b hq hb =>
    have hinode : ((v.created q (newInode e fmode 4096 (UInt32.ofNat b) (UInt32.ofNat q))).allotted
      b
        (directoryBlock (UInt32.ofNat q) n)).inode q = newInode e fmode 4096 (UInt32.ofNat b)
            (UInt32.ofNat q) := by
      simp only [Volume.allotted, Volume.created, Function.update_self]
    exact Dir.new hinode hmode (Volume.firstClear_mem_dataBlocks hlow hb)
      (by simp [Volume.allotted])
      ⟨hlt, by simp [Volume.allotted, Volume.created]⟩ (by simp [Volume.allotted]) hn'

structure Tree (v : Volume) (D : Nat → Option (List (Text × UInt32))) : Prop where
  low : ∀ k, k < 266 → v.blockBit k = true
  dir : ∀ q L, D q = some L → Dir v q L
  all : ∀ q ∈ taken v, sIsdir (v.inode q).iFmode = true → ∃ L, D q = some L
  apart : ∀ q q' L L', D q = some L → D q' = some L' → ∀ k k' : Fin 12, 32 * k.val < L.length →
    32 * k'.val < L'.length → ((v.inode q).iDirectTable k).toNat = ((v.inode q').iDirectTable
      k').toNat → q = q' ∧ k = k'

namespace Tree
variable {v u : Volume} {D : Nat → Option (List (Text × UInt32))} (h : Tree v D)
include h

theorem inSession (f : Session → Session) : Tree (v.inSession f) D :=
  ⟨h.low, fun q L hq => (h.dir q L hq).frame rfl (fun _ _ => rfl) (fun _ h => h) fun _ h => h,
    h.all, h.apart⟩

theorem frame (hinode : ∀ q L, D q = some L → u.inode q = v.inode q)
    (hblock : ∀ q L, D q = some L → ∀ k : Fin 12, 32 * k.val < L.length →
      u.block ((v.inode q).iDirectTable k).toNat = v.block ((v.inode q).iDirectTable k).toNat)
    (hinodeBit : ∀ p, v.inodeBit p = true → u.inodeBit p = true)
    (hblockBit : ∀ k, v.blockBit k = true → u.blockBit k = true)
    (hall : ∀ q ∈ taken u, sIsdir (u.inode q).iFmode = true → ∃ L, D q = some L) : Tree u D := by
  refine ⟨fun k hk => hblockBit k (h.low k hk), fun q L hq => ?_, hall, fun q q' L L' hq hq' => ?_⟩
  · exact (h.dir q L hq).frame (hinode q L hq) (hblock q L hq) hinodeBit hblockBit
  · rw [hinode q L hq, hinode q' L' hq']
    exact h.apart q q' L L' hq hq'

theorem update {p : Nat} {L' : List (Text × UInt32)} (hdir : Dir u p L')
    (hinode : ∀ q, q ≠ p → u.inode q = v.inode q)
    (hblock : ∀ q L, q ≠ p → D q = some L → ∀ k : Fin 12, 32 * k.val < L.length →
      u.block ((v.inode q).iDirectTable k).toNat = v.block ((v.inode q).iDirectTable k).toNat)
    (hinodeBit : ∀ q, v.inodeBit q = true → u.inodeBit q = true)
    (hblockBit : ∀ k, v.blockBit k = true → u.blockBit k = true) (htaken : ∀ q ∈ taken u, q ≠ p →
    q ∈ taken v)
    {c : Nat} (hpointer : ∀ k : Fin 12, 32 * k.val < L'.length →
      (∃ L, D p = some L ∧ 32 * k.val < L.length ∧
      (u.inode p).iDirectTable k = (v.inode p).iDirectTable k) ∨
        32 * k.val = c ∧ v.blockBit ((u.inode p).iDirectTable k).toNat = false) :
    Tree u (Function.update D p (some L')) := by
  have hold : ∀ q L, Function.update D p (some L') q = some L → ∀ k : Fin 12, 32 * k.val < L.length
    →
      (∃ L₀, D q = some L₀ ∧ 32 * k.val < L₀.length ∧
        (u.inode q).iDirectTable k = (v.inode q).iDirectTable k) ∨
        q = p ∧ 32 * k.val = c ∧ v.blockBit ((u.inode q).iDirectTable k).toNat = false := by
    intro q L hq k hk
    rw [Function.update_apply] at hq
    split_ifs at hq with hqp
    · subst hqp
      obtain rfl := Option.some.inj hq
      exact (hpointer k hk).imp_right fun hfresh => ⟨rfl, hfresh⟩
    · exact .inl ⟨L, hq, hk, by rw [hinode q hqp]⟩
  refine ⟨fun k hk => hblockBit k (h.low k hk), fun q L hq => ?_, fun q hq hmode => ?_, ?_⟩
  · rw [Function.update_apply] at hq
    split_ifs at hq with hqp
    · subst hqp
      obtain rfl := Option.some.inj hq
      exact hdir
    · exact (h.dir q L hq).frame (hinode q hqp) (hblock q L hqp hq) hinodeBit hblockBit
  · rw [Function.update_apply]
    split_ifs with hqp
    · exact ⟨L', rfl⟩
    · rw [hinode q hqp] at hmode
      exact h.all q (htaken q hq hqp) hmode
  · -- two old pointers were apart, an old one and a new one differ in the bitmap
    intro q q' L₁ L₂ hq hq' k k' hk hk' heq
    obtain ⟨L₀, hL₀, hk₀, hptr⟩ | ⟨rfl, hlast, hfree⟩ := hold q L₁ hq k hk
    · obtain ⟨L₀', hL₀', hk₀', hptr'⟩ | ⟨-, -, hfree⟩ := hold q' L₂ hq' k' hk'
      · rw [hptr, hptr'] at heq
        exact h.apart q q' L₀ L₀' hL₀ hL₀' k k' hk₀ hk₀' heq
      · rw [← heq, hptr, (h.dir q L₀ hL₀).blockBit k hk₀] at hfree
        cases hfree
    · obtain ⟨L₀', hL₀', hk₀', hptr'⟩ | ⟨rfl, hlast', -⟩ := hold q' L₂ hq' k' hk'
      · rw [heq, hptr', (h.dir q' L₀' hL₀').blockBit k' hk₀'] at hfree
        cases hfree
      · exact ⟨rfl, Fin.ext (by omega)⟩

theorem append {n : Nat} {L : List (Text × UInt32)} (hn : D n = some L) {d : Dentry}
    {x : Text × UInt32}
    {r : Inode × Volume} (hd : d.Reads x) (hlen : L.length < 384) (hnumber : x.2.toNat ∈ taken v)
    (hname : x.1.bytes ≠ []) (hnew : x.1 ∉ L.map Prod.fst)
    (hr : Volume.Wrote v (v.inode n) ((v.inode n).iFnum + 2) d r) :
    Tree r.2 (Function.update D n (some (L ++ [x]))) := by
  have hdir := h.dir n L hn
  have hlength : (L ++ [x]).length = L.length + 1 := by simp
  have hstores := hdir.stores hr
  have hother : ∀ q, q ≠ n → r.2.inode q = v.inode q :=
    fun q hq => hr.inode_of_ne (by rwa [hdir.num])
  have hlists : Lists r.2 r.1 (L ++ [x]) := hdir.toLists.append hd hlen hr h.low hdir.blockBit
    fun k l hk hl heq => (h.apart n n L L hn hn k l hk hl heq).2
  have hmem : ∀ {P : Text × UInt32 → Prop}, (∀ y ∈ L, P y) → P x → ∀ y ∈ L ++ [x], P y :=
      fun hL hx y hy =>
    (List.mem_append.mp hy).elim (hL y) fun hy => List.mem_singleton.mp hy ▸ hx
  -- a pointer in use is an old one, or leads to a block that was free
  have hpointer : ∀ k : Fin 12, 32 * k.val < L.length + 1 →
      (r.1.iDirectTable k = (v.inode n).iDirectTable k ∧ 32 * k.val < L.length) ∨
        32 * k.val = L.length ∧ v.blockBit (r.1.iDirectTable k).toNat = false ∧
          r.2.blockBit (r.1.iDirectTable k).toNat = true := by
    intro k hk
    refine (hr.pointer h.low k).imp (fun heq => ⟨heq, ?_⟩) fun ⟨hzero, hfresh⟩ => ⟨?_, hfresh⟩
    · by_contra hge
      exact ne_zero_of_mem_dataBlocks (hlists.block k (by omega))
        (heq.trans (hdir.noBlock k (by omega)))
    · by_contra hne
      exact ne_zero_of_mem_dataBlocks (hdir.block k (by omega)) hzero
  refine h.update (c := L.length) ⟨hstores ▸ hlists, hdir.lt, hr.inodeBit ▸ hdir.inodeBit, ?_, ?_,
    fun k hk => ?_, ?_, ?_,
    ?_⟩ hother (fun q L' hqn hq k hk => ?_) (fun p hp => hr.inodeBit ▸ hp) (fun k hk =>
      hr.blockBit_mono hk)
    (fun q hq _ => ⟨hq.1, hr.inodeBit ▸ hq.2⟩) fun k hk => ?_
  · rw [hstores, hr.iNum, hdir.num]
  · rw [hstores, hr.iFmode]
    exact hdir.mode
  · rw [hstores]
    obtain ⟨heq, hused⟩ | ⟨-, -, hset⟩ := hpointer k (by omega)
    · rw [heq]
      exact hr.blockBit_mono (hdir.blockBit k hused)
    · exact hset
  · exact hmem (fun y hy => ⟨(hdir.number y hy).1, hr.inodeBit ▸ (hdir.number y hy).2⟩)
      ⟨hnumber.1, hr.inodeBit ▸ hnumber.2⟩
  · exact hmem hdir.name hname
  · rw [List.map_append, List.map_singleton, ← List.concat_eq_append]
    exact hdir.distinct.concat hnew
  · have hdir' := h.dir q L' hq
    refine hr.block_of_ne (hdir'.block k hk) (hdir'.blockBit k hk) fun l heq => ?_
    by_cases hl : 32 * l.val < L.length
    · exact hqn (h.apart q n L' L hq hn k l hk hl heq.symm).1
    · exact ne_zero_of_mem_dataBlocks (hdir'.block k hk) ((UInt32.toNat_inj.mp heq).symm.trans
        (hdir.noBlock l (by omega)))
  · rw [hstores]
    exact (hpointer k (by omega)).imp (fun ⟨heq, hused⟩ => ⟨L, hn, hused, heq⟩) fun ⟨hlast, hfree,
      _⟩ => ⟨hlast, hfree⟩

theorem notMem_of_clear {q : Nat} (hq : v.inodeBit q = false) : D q = none := by
  cases hD : D q with
  | none => rfl
  | some L =>
    have hbit := (h.dir q L hD).inodeBit
    rw [hq] at hbit
    cases hbit

theorem made {e : Env} {fmode : UInt16} {content : Option (UInt32 → Block)} {q : Nat}
    (hmade : Volume.Made e v fmode content q u) (hmode : sIsdir fmode = false) : Tree u D := by
  obtain ⟨hlt, hclear, hbit⟩ := hmade.inodeBit
  have hinode : u.inode = Function.update v.inode q (u.inode q) ∧ (u.inode q).iFmode = fmode := by
    cases hmade <;> simp [Volume.created, Volume.allotted, newInode]
  refine h.frame (fun p L hp => ?_) (fun p L hp k hk => hmade.block_of_bit ((h.dir p L hp).blockBit
    k hk)) (fun p hp => ?_) (fun k hk => hmade.low hk)
    fun p hp hdir => ?_
  · rw [hinode.1, Function.update_of_ne]
    rintro rfl
    rw [h.notMem_of_clear hclear] at hp
    cases hp
  · rw [hbit, Function.update_apply]
    split_ifs
    · rfl
    · exact hp
  · by_cases hpq : p = q
    · rw [hpq, hinode.2, hmode] at hdir
      cases hdir
    · rw [hinode.1, Function.update_of_ne hpq] at hdir
      have hset := hp.2
      rw [hbit, Function.update_of_ne hpq] at hset
      exact h.all p ⟨hp.1, hset⟩ hdir

theorem madeDir {e : Env} {fmode : UInt16} {n : UInt32} {q : Nat} (hmode : sIsdir fmode = true)
    (hn : n.toNat ∈ taken v)
    (hmade : Volume.Made e v fmode (some fun q => directoryBlock q n) q u) :
    Tree u (Function.update D q (some [(.dot, UInt32.ofNat q), (.dotdot, n)])) := by
  obtain ⟨hlt, hclear, hbit⟩ := hmade.inodeBit
  have hmono : ∀ p, v.inodeBit p = true → u.inodeBit p = true := fun p hp => by
    rw [hbit, Function.update_apply]
    split_ifs
    · rfl
    · exact hp
  have hnew := Dir.made h.low hmode hn hmade
  cases hmade with
  | @withBlock _ _ b hq hb =>
    have hnat : (UInt32.ofNat b).toNat = b :=
      toNat_of_mem_dataBlocks (Volume.firstClear_mem_dataBlocks h.low hb)
    refine h.update (c := 0) hnew (fun p hp => ?_) (fun p L hp hL k hk => ?_) hmono (fun k hk => ?_)
      (fun p hp hpq => ?_)
      fun k hk => ?_
    · simp [Volume.allotted, Volume.created, Function.update_of_ne hp]
    · have hset := (h.dir p L hL).blockBit k hk
      refine Function.update_of_ne (fun heq => ?_) _ _
      rw [heq, (Volume.firstClear_lt hb).2] at hset
      cases hset
    · simp [Volume.allotted, Volume.created, Function.update_apply, hk]
    · have hset := hp.2
      rw [hbit, Function.update_of_ne hpq] at hset
      exact ⟨hp.1, hset⟩
    · have hk0 : 32 * k.val = 0 := by
        simp only [List.length_cons, List.length_nil] at hk
        omega
      obtain rfl : k = 0 := Fin.ext (by simp; omega)
      refine .inr ⟨hk0, ?_⟩
      simp only [Volume.allotted, Volume.created, Function.update_self, newInode, hnat]
      exact (Volume.firstClear_lt hb).2

structure Enters (D D' : Nat → Option (List (Text × UInt32))) (fmode : UInt16) (n : UInt32)
    (q : Nat)
    (L : List (Text × UInt32)) (name : Text) : Prop where
  entries : D' n.toNat = some (L ++ [(name, UInt32.ofNat q)])
  child : sIsdir fmode = true → D' q = some [(.dot, UInt32.ofNat q), (.dotdot, n)]
  file : sIsdir fmode = false → D' q = none
  other : ∀ p, p ≠ n.toNat → p ≠ q → D' p = D p

section Create
variable {e : Env} {op : Op} {n : UInt32} {L : List (Text × UInt32)} {name : Text} {fmode : UInt16}
  {content : Option (UInt32 → Block)} {q : Nat} {v₁ v' : Volume} (hn : D n.toNat = some L)
    (hlen : L.length < 384)
  (hname : name.bytes ≠ []) (hshort : name.length < 124) (hnew : name ∉ L.map Prod.fst)
  (hmakes : Volume.Makes n op fmode content) (hmade : Volume.Made e v fmode content q v₁)
include hn hmade

theorem new_ne : n.toNat ≠ q := fun heq => by
  rw [heq, h.notMem_of_clear hmade.inodeBit.2.1] at hn
  cases hn

include hmakes in
theorem exists_made :
    ∃ D₁, Tree v₁ D₁ ∧ (sIsdir fmode = true → D₁ q = some [(.dot, UInt32.ofNat q), (.dotdot, n)]) ∧
    (sIsdir fmode = false → D₁ q = none) ∧ ∀ p, p ≠ q → D₁ p = D p := by
  have hdir := h.dir _ L hn
  by_cases hmode : sIsdir fmode = true
  · cases hmakes with
    | mkdir path mode =>
      exact ⟨_, h.madeDir hmode ⟨hdir.lt, hdir.inodeBit⟩ hmade, fun _ => Function.update_self ..,
        fun hfile => (by rw [hmode] at hfile; cases hfile), fun p hp => Function.update_of_ne hp ..⟩
    | touch name mode =>
      rw [sIsdir_sIfreg] at hmode
      cases hmode
    | symlink srcPath newPath => cases hmode
  · exact ⟨D, h.made hmade (by simpa using hmode), fun hdir => absurd hdir hmode,
      fun _ => h.notMem_of_clear hmade.inodeBit.2.1, fun _ _ => rfl⟩

include hlen hname hshort hnew hmakes

theorem create {i' : Inode}
    (hwrote : Volume.Wrote v₁ (v.inode n.toNat) ((v.inode n.toNat).iFnum + 2)
    (e.stack.fill (UInt32.ofNat q) name) (i', v')) :
    ∃ D', Tree v' D' ∧ Enters D D' fmode n q L name := by
  obtain ⟨hlt, hclear, hbit⟩ := hmade.inodeBit
  have hne := h.new_ne hn hmade
  obtain ⟨D₁, htree, hchild, hfile, hother⟩ := h.exists_made hn hmakes hmade
  have hinode : v₁.inode n.toNat = v.inode n.toNat := hmade.inode_of_ne hne
  have hq : (UInt32.ofNat q).toNat = q := toNat_ofNat_of_lt (by omega)
  rw [← hinode] at hwrote
  refine ⟨_, htree.append ((hother _ hne).trans hn) (reads_fill hshort) hlen ?_ hname hnew hwrote,
    Function.update_self ..,
    fun hmode => ?_, fun hmode => ?_, fun p hpn hpq => ?_⟩
  · rw [hq]
    exact ⟨hlt, by rw [hbit, Function.update_self]⟩
  · rw [Function.update_of_ne hne.symm, hchild hmode]
  · rw [Function.update_of_ne hne.symm, hfile hmode]
  · rw [Function.update_of_ne hpn, hother p hpq]

end Create

end Tree

end Ucas.Fs

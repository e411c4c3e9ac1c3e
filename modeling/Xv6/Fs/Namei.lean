import Xv6.Fs.Path
import Xv6.Fs.Solo
import Mathlib.Algebra.BigOperators.Fin
import Mathlib.Algebra.Order.BigOperators.Group.Finset

/-! # Path resolution

What `namei` and `nameiparent` do when nobody else is active. On the way from the root or from the
current directory to the inode that a path names, `namex` holds one reference, or two while it
steps from a directory to an entry, and it locks the directory it looks into. Apart from that the
state is the one it started in, so that each lookup sees the directory as it was at the
beginning. -/

namespace Xv6

open Lib Fs Prog

/-! ## Quiescent states -/

/-- What a slot of the cache contributes to the references to an inode. -/
def Inode.share (x : Inode) (i : Nat) : Int := if x.inum = i then x.ref else 0

namespace FsState

/-- **The references to an inode** that the cache counts. -/
def refs (s : FsState) (i : Nat) : Int := ∑ ip : Slot, (s.icache ip).share i

/-- **No operation on files is under way**, and the calling process has a current directory. -/
structure Quiescent (s : FsState) (p : Pid) : Prop where
  buf : ∀ n, s.buf n = none
  nonneg : ∀ ip, 0 ≤ (s.icache ip).ref
  busy : ∀ ip, 0 < (s.icache ip).ref → (s.icache ip).busy = none
  unique : ∀ ip ip', 0 < (s.icache ip).ref → 0 < (s.icache ip').ref →
    (s.icache ip).inum = (s.icache ip').inum → ip = ip'
  cwd : ∃ ip, s.cwd p = some ip ∧ 0 < (s.icache ip).ref

/-- The inodes that a process can reach by paths. -/
inductive Reachable (s : FsState) (p : Pid) : Nat → Prop
  | root : Reachable s p ROOTINO
  | cwd {ip : Slot} (h : s.cwd p = some ip) : Reachable s p (s.icache ip).inum
  | entry {i : Nat} {e : Dirent} (hi : Reachable s p i) (hdir : s.IsDir i)
      (he : e ∈ entries s.disk (s.inodeOf i)) (hused : e.inum ≠ 0) : Reachable s p e.inum

/-- **What can be reached is in order**: no inode is free, directories have all their blocks, and
what has no links left is in use. -/
structure WellFormed (s : FsState) (p : Pid) : Prop where
  type_ne : ∀ i, s.Reachable p i → (s.inodeOf i).type ≠ 0
  blocks : ∀ i, s.Reachable p i → s.IsDir i →
    ∀ k < dirBlocks (s.inodeOf i), blockNo s.disk (s.inodeOf i) k ≠ 0
  linked : ∀ i, s.Reachable p i → s.refs i = 0 → (s.inodeOf i).nlink ≠ 0

/-- **The cache has room** for two more inodes. -/
def Room (s : FsState) : Prop :=
  ∃ ip ip', ip ≠ ip' ∧ (s.icache ip).ref = 0 ∧ (s.icache ip').ref = 0

/-- Where `namex` starts. -/
def startOf (s : FsState) (p : Pid) (path : List UInt8) : Option Nat :=
  if path.head? = some slash then some ROOTINO else (s.cwd p).map fun ip => (s.icache ip).inum

theorem icache_setIno_self (s : FsState) (ip : Slot) (x : Inode) : (s.setIno ip x).icache ip = x :=
  Function.update_self ..

theorem icache_setIno_of_ne (s : FsState) {ip ip' : Slot} (x : Inode) (h : ip' ≠ ip) :
    (s.setIno ip x).icache ip' = s.icache ip' :=
  Function.update_of_ne h ..

theorem setIno_setIno (s : FsState) (ip : Slot) (x y : Inode) :
    (s.setIno ip x).setIno ip y = s.setIno ip y := by
  rw [setIno, setIno, setIno, Function.update_idem]

/-- A change of one slot changes the references by the difference. -/
theorem refs_setIno (s : FsState) (ip : Slot) (x : Inode) (i : Nat) :
    (s.setIno ip x).refs i = s.refs i + (x.share i - (s.icache ip).share i) := by
  have hsum (f : Slot → Int) : ∑ q, f q = f ip + ∑ q ∈ Finset.univ.erase ip, f q :=
    (Finset.add_sum_erase _ _ (Finset.mem_univ ip)).symm
  have hrest : ∑ q ∈ Finset.univ.erase ip, ((s.setIno ip x).icache q).share i =
      ∑ q ∈ Finset.univ.erase ip, (s.icache q).share i :=
    Finset.sum_congr rfl fun q hq => by rw [icache_setIno_of_ne _ _ (Finset.ne_of_mem_erase hq)]
  rw [refs, refs, hsum, hsum fun q => (s.icache q).share i, hrest, icache_setIno_self]
  omega

variable {s : FsState}

/-- The slot found for an inode. -/
theorem cached_eq_some {i : Nat} {ip : Slot} (h : s.cached i = some ip) :
    0 < (s.icache ip).ref ∧ (s.icache ip).inum = i := by
  simpa using List.find?_some h

theorem cached_eq_none_iff {i : Nat} :
    s.cached i = none ↔ ∀ ip, 0 < (s.icache ip).ref → (s.icache ip).inum ≠ i := by
  simp [cached, List.find?_eq_none]

theorem empty_eq_some {ip : Slot} (h : s.empty = some ip) : (s.icache ip).ref = 0 := by
  simpa using List.find?_some h

theorem empty_eq_none_iff : s.empty = none ↔ ∀ ip, (s.icache ip).ref ≠ 0 := by
  simp [empty, List.find?_eq_none]

section Refs

variable {s : FsState} (hnonneg : ∀ ip, 0 ≤ (s.icache ip).ref)

include hnonneg

theorem share_nonneg (ip : Slot) (i : Nat) : 0 ≤ (s.icache ip).share i := by
  unfold Inode.share
  split
  · exact hnonneg ip
  · exact Int.le_refl _

theorem refs_nonneg (i : Nat) : 0 ≤ s.refs i :=
  Finset.sum_nonneg fun ip _ => share_nonneg hnonneg ip i

/-- An inode has no references if it has no slot in the cache. -/
theorem refs_eq_zero_iff (i : Nat) : s.refs i = 0 ↔ s.cached i = none := by
  rw [refs, Finset.sum_eq_zero_iff_of_nonneg fun ip _ => share_nonneg hnonneg ip i,
    cached_eq_none_iff]
  constructor
  · intro h ip hpos heq
    have hzero := h ip (Finset.mem_univ ip)
    rw [Inode.share, if_pos heq] at hzero
    omega
  · intro h ip _
    unfold Inode.share
    split
    · next heq =>
        have hle : ¬ 0 < (s.icache ip).ref := fun hpos => h ip hpos heq
        have := hnonneg ip
        omega
    · rfl

/-- The references to an inode with a slot are those counted there. -/
theorem refs_eq_ref (hunique : ∀ ip ip', 0 < (s.icache ip).ref → 0 < (s.icache ip').ref →
    (s.icache ip).inum = (s.icache ip').inum → ip = ip') {ip : Slot}
    (hpos : 0 < (s.icache ip).ref) : s.refs (s.icache ip).inum = (s.icache ip).ref := by
  have hself : (s.icache ip).share (s.icache ip).inum = (s.icache ip).ref := if_pos rfl
  rw [refs, ← hself]
  refine Finset.sum_eq_single_of_mem ip (Finset.mem_univ ip) fun q _ hq => ?_
  unfold Inode.share
  split
  · next heq =>
      have hle : ¬ 0 < (s.icache q).ref := fun hq' => hq (hunique q ip hq' hpos heq)
      have := hnonneg q
      omega
  · rfl

end Refs

/-- An inode with a slot is what the slot stands for. -/
theorem inodeOf_slot {ip : Slot}
    (hunique : ∀ ip ip', 0 < (s.icache ip).ref → 0 < (s.icache ip').ref →
      (s.icache ip).inum = (s.icache ip').inum → ip = ip') (hpos : 0 < (s.icache ip).ref) :
    s.inodeOf (s.icache ip).inum = Inode.contents s.disk (s.icache ip) := by
  unfold inodeOf
  cases hc : s.cached (s.icache ip).inum with
  | none => exact absurd rfl (cached_eq_none_iff.mp hc ip hpos)
  | some q =>
      obtain ⟨hq, hinum⟩ := cached_eq_some hc
      rw [hunique q ip hq hpos hinum]

theorem inodeOf_of_cached_eq_none {i : Nat} (h : s.cached i = none) :
    s.inodeOf i = dinodeAt (s.disk (IBLOCK i)) i := by
  rw [inodeOf, h]

end FsState

/-! ## Locking and reading an inode -/

section Alone

variable {p : Pid} {pan : String → Prop} {s t : FsState} {ip : Slot}

/-- A slot with the inode read in, and locked. -/
def Inode.locked (disk : Disk) (p : Pid) (x : Inode) : Inode :=
  { x with busy := some p, valid := true, d := Inode.contents disk x }

section

variable (hbuf : ∀ n, t.buf n = none)

include hbuf

/-- **`ilock` of an inode that nobody has locked.** -/
theorem alone_ilock (href : 0 < (t.icache ip).ref)
    (hbusy : (t.icache ip).busy = none)
    (htype : (Inode.contents t.disk (t.icache ip)).type ≠ 0) {Q : Unit → FsState → Prop} :
    Alone p pan (ilock ip) Q t ↔ Q () (t.setIno ip (Inode.locked t.disk p (t.icache ip))) := by
  unfold ilock
  rw [alone_bind, alone_ilockBusy href hbusy, alone_bind, alone_inode, t.icache_setIno_self]
  cases hvalid : (t.icache ip).valid with
  | true =>
      have hx : Inode.locked t.disk p (t.icache ip) = { t.icache ip with busy := some p } := by
        unfold Inode.locked Inode.contents
        rw [if_pos hvalid, ← hvalid]
      rw [hx]
      exact .rfl
  | false =>
      -- the inode is read from the disk
      have hcontents : Inode.contents t.disk (t.icache ip) =
          dinodeAt (t.disk (IBLOCK (t.icache ip).inum)) (t.icache ip).inum := by
        unfold Inode.contents
        rw [hvalid]
        rfl
      simp only [Bool.false_eq_true, if_false]
      rw [alone_bind, alone_bread (by exact hbuf _), alone_bind, alone_setInode, alone_bind,
        alone_brelse (by rw [FsState.setIno, FsState.buf_setBuf]; simp), alone_bind, alone_setValid]
      have hstate (x y z : Inode) (n : Nat) :
          ((((t.setIno ip x).setBuf n (some p)).setIno ip y).setBuf n none).setIno ip z =
            t.setIno ip z := by
        show ((((t.setBuf n (some p)).setBuf n none).setIno ip x).setIno ip y).setIno ip z = _
        rw [FsState.setBuf_setBuf (hbuf n), FsState.setIno_setIno, FsState.setIno_setIno]
      rw [hcontents] at htype
      rw [hstate, if_neg (by exact htype), Inode.locked, hcontents]
      simp only [FsState.setIno, FsState.setBuf, Function.update_self]
      exact .rfl

/-- **`bmap` of a block that the inode has.** -/
theorem alone_bmap {k : Nat}
    (hk : blockNo t.disk (t.icache ip).d k ≠ 0) {Q : Nat → FsState → Prop} :
    Alone p pan (bmap ip k) Q t ↔ Q (blockNo t.disk (t.icache ip).d k) t := by
  unfold bmap
  rw [alone_bind, alone_inode]
  by_cases hdirect : k < NDIRECT
  · rw [blockNo_of_lt hdirect] at hk ⊢
    rw [dif_pos hdirect, if_neg hk]
    exact .rfl
  · have hmax : k < MAXFILE := Nat.lt_of_not_le fun hle => hk (blockNo_of_max_le hle)
    have hind : (t.icache ip).d.indirect ≠ 0 := fun h =>
      hk (blockNo_of_indirect_eq (Nat.le_of_not_lt hdirect) h)
    rw [blockNo_of_ge (Nat.le_of_not_lt hdirect) hind] at hk ⊢
    rw [dif_neg hdirect, if_pos (by unfold MAXFILE at hmax; omega), alone_bind, bmapIndirect,
      if_neg hind]
    show Alone p pan (bread _ >>= _) Q t ↔ _
    rw [alone_bind, alone_bread (hbuf _), if_neg hk, alone_bind,
      alone_brelse (by rw [FsState.buf_setBuf]; simp), FsState.setBuf_setBuf (hbuf _)]
    exact .rfl

/-- **The outer loop of `dirlookup`** finds the entry with the name, and gets its inode. -/
theorem alone_dirlookupLoop {name : List UInt8} (h0 : 0 ∉ name)
    (hlen : name.length ≤ DIRSIZ) {n bn : Nat}
    (hblocks : ∀ k < bn + n, blockNo t.disk (t.icache ip).d k ≠ 0)
    {Q : Option Slot → FsState → Prop} :
    Alone p pan (dirlookupLoop ip name n bn) (fun r => Q (r.map Prod.fst)) t ↔
      match numberIn name (entriesFrom t.disk (t.icache ip).d n bn) with
      | none => Q none t
      | some j => ∃ next u, t.iget j = some (next, u) ∧ Q (some next) u := by
  induction n generalizing bn with
  | zero => exact .rfl
  | succ n ih =>
      have hbn := hblocks bn (by omega)
      have hentries : entriesFrom t.disk (t.icache ip).d (n + 1) bn =
          blockEntries (t.disk (blockNo t.disk (t.icache ip).d bn)) ++
            entriesFrom t.disk (t.icache ip).d n (bn + 1) := by
        rw [entriesFrom, List.range'_succ, List.flatMap_cons]
        rfl
      have hheld : (t.setBuf (blockNo t.disk (t.icache ip).d bn) (some p)).buf
          (blockNo t.disk (t.icache ip).d bn) ≠ none := by
        rw [FsState.buf_setBuf]
        simp
      rw [dirlookupLoop, alone_bind, alone_bmap hbuf hbn, alone_bind, alone_bread (hbuf _),
        hentries, numberIn_append, numberIn_blockEntries h0 hlen]
      cases findEntry (t.disk (blockNo t.disk (t.icache ip).d bn)) name (BSIZE / DIRENT) 0 with
      | some k =>
          simp only [Option.map_some, Option.some_or]
          rw [alone_bind, alone_brelse hheld, FsState.setBuf_setBuf (hbuf _), alone_bind, alone_iget]
          exact .rfl
      | none =>
          simp only [Option.map_none, Option.none_or]
          rw [alone_bind, alone_brelse hheld, FsState.setBuf_setBuf (hbuf _)]
          exact ih fun k hk => hblocks k (by omega)

/-- **`dirlookup` of a name in a directory** whose blocks are all there. -/
theorem alone_dirlookup {name : List UInt8} (h0 : 0 ∉ name)
    (hlen : name.length ≤ DIRSIZ) (hdir : (t.icache ip).d.type = T_DIR)
    (hblocks : ∀ k < dirBlocks (t.icache ip).d, blockNo t.disk (t.icache ip).d k ≠ 0)
    {Q : Option Slot → FsState → Prop} :
    Alone p pan (dirlookup ip name) (fun r => Q (r.map Prod.fst)) t ↔
      match numberIn name (entries t.disk (t.icache ip).d) with
      | none => Q none t
      | some j => ∃ next u, t.iget j = some (next, u) ∧ Q (some next) u := by
  unfold dirlookup
  rw [alone_bind, alone_inode, if_pos hdir]
  exact alone_dirlookupLoop hbuf h0 hlen fun k hk => hblocks k (by rwa [Nat.zero_add] at hk)

end

end Alone

/-! ## On the way -/

theorem single_one_nonneg (i j : Nat) : 0 ≤ (Pi.single i 1 : Nat → Int) j := by
  rw [Pi.single_apply]
  split
  · exact Int.one_nonneg
  · exact Int.le_refl 0

/-- **A state on the way**: `t` is `s` with extra references to some inodes, and with one slot
locked. -/
structure OnWay (p : Pid) (s t : FsState) (extra : Nat → Int) (lock : Option Slot) : Prop where
  disk : t.disk = s.disk
  buf : ∀ n, t.buf n = none
  nonneg : ∀ ip, 0 ≤ (t.icache ip).ref
  unique : ∀ ip ip', 0 < (t.icache ip).ref → 0 < (t.icache ip').ref →
    (t.icache ip).inum = (t.icache ip').inum → ip = ip'
  contents : ∀ ip, 0 < (t.icache ip).ref →
    Inode.contents s.disk (t.icache ip) = s.inodeOf (t.icache ip).inum
  unlocked : ∀ ip, 0 < (t.icache ip).ref → lock ≠ some ip → (t.icache ip).busy = none
  locked : ∀ ip, lock = some ip → 0 < (t.icache ip).ref ∧ (t.icache ip).busy ≠ none
  extra_nonneg : ∀ i, 0 ≤ extra i
  refs : ∀ i, t.refs i = s.refs i + extra i

namespace OnWay

variable {p : Pid} {s t : FsState} {extra extra' : Nat → Int} {lock lock' : Option Slot} {ip : Slot}
  {i j : Nat}

/-- The state at the beginning. -/
theorem start (hs : s.Quiescent p) : OnWay p s s 0 none where
  disk := rfl
  buf := hs.buf
  nonneg := hs.nonneg
  unique := hs.unique
  contents _ hpos := (FsState.inodeOf_slot hs.unique hpos).symm
  unlocked ip hpos _ := hs.busy ip hpos
  locked _ h := nomatch h
  extra_nonneg _ := Int.le_refl _
  refs _ := (Int.add_zero _).symm

section

variable (h : OnWay p s t extra lock)

include h

/-- **A change of one slot.** -/
theorem setIno (x : Inode) (hx : 0 ≤ x.ref)
    (hunique : 0 < x.ref → ∀ q ≠ ip, 0 < (t.icache q).ref → (t.icache q).inum ≠ x.inum)
    (hcontents : 0 < x.ref → Inode.contents s.disk x = s.inodeOf x.inum)
    (hunlocked : 0 < x.ref → lock' ≠ some ip → x.busy = none)
    (hlocked : lock' = some ip → 0 < x.ref ∧ x.busy ≠ none)
    (hlock : ∀ q ≠ ip, (lock' = some q ↔ lock = some q)) (hextra' : ∀ i, 0 ≤ extra' i)
    (hextra : ∀ i, extra' i = extra i + (x.share i - (t.icache ip).share i)) :
    OnWay p s (t.setIno ip x) extra' lock' := by
  have hcases (P : Inode → Slot → Prop) (hself : P x ip) (hoff : ∀ q ≠ ip, P (t.icache q) q)
      (q : Slot) : P ((t.setIno ip x).icache q) q := by
    by_cases hq : q = ip
    · subst hq
      rw [t.icache_setIno_self]
      exact hself
    · rw [t.icache_setIno_of_ne x hq]
      exact hoff q hq
  refine ⟨h.disk, h.buf, ?_, ?_, ?_, ?_, ?_, hextra', fun i => ?_⟩
  · exact hcases (fun y _ => 0 ≤ y.ref) hx fun q _ => h.nonneg q
  · refine hcases (fun y q => ∀ q', 0 < y.ref → 0 < ((t.setIno ip x).icache q').ref →
      y.inum = ((t.setIno ip x).icache q').inum → q = q') ?_ fun q hq => ?_
    · refine hcases (fun y q' => 0 < x.ref → 0 < y.ref → x.inum = y.inum → ip = q')
        (fun _ _ _ => rfl) fun q' hq' hpos hpos' heq => ?_
      exact absurd heq.symm (hunique hpos q' hq' hpos')
    · refine hcases (fun y q' => 0 < (t.icache q).ref → 0 < y.ref → (t.icache q).inum = y.inum →
        q = q') (fun hpos hpos' heq => ?_) fun q' _ => h.unique q q'
      exact absurd heq (hunique hpos' q hq hpos)
  · exact hcases (fun y _ => 0 < y.ref → Inode.contents s.disk y = s.inodeOf y.inum) hcontents
      fun q _ => h.contents q
  · refine hcases (fun y q => 0 < y.ref → lock' ≠ some q → y.busy = none) hunlocked fun q hq => ?_
    exact fun hpos hne => h.unlocked q hpos fun heq => hne ((hlock q hq).mpr heq)
  · refine hcases (fun y q => lock' = some q → 0 < y.ref ∧ y.busy ≠ none) hlocked fun q hq heq => ?_
    exact h.locked q ((hlock q hq).mp heq)
  · rw [FsState.refs_setIno, h.refs, hextra]
    omega

/-- The slot of an inode is the only one. -/
theorem inum_ne (hpos : 0 < (t.icache ip).ref) {q : Slot} (hq : q ≠ ip)
    (hqpos : 0 < (t.icache q).ref) : (t.icache q).inum ≠ (t.icache ip).inum :=
  fun heq => hq (h.unique q ip hqpos hpos heq)

/-- One more reference to an inode in the cache. -/
theorem addRef (hpos : 0 < (t.icache ip).ref) :
    OnWay p s (t.setIno ip { t.icache ip with ref := (t.icache ip).ref + 1 })
      (extra + Pi.single (t.icache ip).inum 1) lock := by
  refine h.setIno _ (by show 0 ≤ (t.icache ip).ref + 1; omega) (fun _ q hq => h.inum_ne hpos hq)
    (fun _ => h.contents ip hpos) (fun _ => h.unlocked ip hpos)
    (fun heq => ⟨by show 0 < (t.icache ip).ref + 1; omega, (h.locked ip heq).2⟩)
    (fun _ _ => .rfl) (fun j => ?_) fun j => ?_
  · exact Int.add_nonneg (h.extra_nonneg j) (single_one_nonneg _ j)
  · by_cases hj : (t.icache ip).inum = j
    · subst hj
      simp [Inode.share]
    · simp [Inode.share, hj]

/-- An inode that has not been in the cache. -/
theorem fresh (hs : s.Quiescent p) (hcached : t.cached j = none)
    (hempty : (t.icache ip).ref = 0) :
    OnWay p s (t.setIno ip { t.icache ip with inum := j, ref := 1, busy := none, valid := false })
      (extra + Pi.single j 1) lock := by
  have hlock : lock ≠ some ip := fun heq => by
    have := (h.locked ip heq).1
    omega
  have hcontents : dinodeAt (s.disk (IBLOCK j)) j = s.inodeOf j := by
    have hzero := (FsState.refs_eq_zero_iff h.nonneg j).mpr hcached
    have hrefs := h.refs j
    have hextra := h.extra_nonneg j
    have hnonneg := FsState.refs_nonneg hs.nonneg j
    have hnone := (FsState.refs_eq_zero_iff hs.nonneg j).mp (by omega)
    rw [FsState.inodeOf_of_cached_eq_none hnone]
  refine h.setIno _ Int.one_nonneg
    (fun _ q _ hpos => FsState.cached_eq_none_iff.mp hcached q hpos) (fun _ => hcontents)
    (fun _ _ => rfl) (fun heq => absurd heq hlock) (fun _ _ => .rfl) (fun k => ?_) fun k => ?_
  · exact Int.add_nonneg (h.extra_nonneg k) (single_one_nonneg j k)
  · have hold : (t.icache ip).share k = 0 := by simp [Inode.share, hempty]
    rw [hold]
    by_cases hk : j = k
    · subst hk
      simp [Inode.share]
    · simp [Inode.share, hk]

/-- **`iget`**, if there is a slot for the inode. -/
theorem iget (hs : s.Quiescent p) (hroom : t.empty ≠ none) (j : Nat) :
    ∃ next u, t.iget j = some (next, u) ∧ OnWay p s u (extra + Pi.single j 1) lock ∧
      0 < (u.icache next).ref ∧ (u.icache next).inum = j ∧
        ∀ q, 0 < (t.icache q).ref → 0 < (u.icache q).ref ∧ (u.icache q).inum = (t.icache q).inum := by
  unfold FsState.iget
  cases hcached : t.cached j with
  | some next =>
      obtain ⟨hpos, rfl⟩ := FsState.cached_eq_some hcached
      refine ⟨next, _, rfl, h.addRef hpos, ?_, ?_, fun q hq => ?_⟩
      · rw [t.icache_setIno_self]
        show 0 < (t.icache next).ref + 1
        omega
      · rw [t.icache_setIno_self]
      · by_cases hne : q = next
        · subst hne
          rw [t.icache_setIno_self]
          exact ⟨by show 0 < (t.icache q).ref + 1; omega, rfl⟩
        · rw [t.icache_setIno_of_ne _ hne]
          exact ⟨hq, rfl⟩
  | none =>
      obtain ⟨next, hnext⟩ := Option.ne_none_iff_exists'.mp hroom
      have hempty := FsState.empty_eq_some hnext
      rw [hnext]
      refine ⟨next, _, rfl, h.fresh hs hcached hempty, ?_, ?_, fun q hq => ?_⟩
      · rw [t.icache_setIno_self]
        exact Int.one_pos
      · rw [t.icache_setIno_self]
      · have hne : q ≠ next := fun heq => by
          subst heq
          omega
        rw [t.icache_setIno_of_ne _ hne]
        exact ⟨hq, rfl⟩

end

/-- The inode is locked. -/
theorem lockIno (h : OnWay p s t extra none) (hpos : 0 < (t.icache ip).ref) :
    OnWay p s (t.setIno ip (Inode.locked t.disk p (t.icache ip))) extra (some ip) := by
  refine h.setIno _ (h.nonneg ip) (fun _ q hq => h.inum_ne hpos hq) (fun _ => ?_)
    (fun _ hne => absurd rfl hne) (fun _ => ⟨hpos, Option.some_ne_none p⟩) (fun q hq => ?_)
    h.extra_nonneg fun j => ?_
  · show (if true = true then Inode.contents t.disk (t.icache ip) else _) = _
    rw [if_pos rfl, h.disk]
    exact h.contents ip hpos
  · exact iff_of_false (fun heq => hq (Option.some.inj heq).symm) nofun
  · show extra j = extra j + ((t.icache ip).share j - (t.icache ip).share j)
    omega

/-- The inode is unlocked. -/
theorem unlockIno (h : OnWay p s t extra (some ip)) :
    OnWay p s (t.setIno ip { t.icache ip with busy := none }) extra none := by
  obtain ⟨hpos, -⟩ := h.locked ip rfl
  refine h.setIno _ (h.nonneg ip) (fun _ q hq => h.inum_ne hpos hq) (fun _ => h.contents ip hpos)
    (fun _ _ => rfl) nofun (fun q hq => ?_) h.extra_nonneg fun j => ?_
  · exact iff_of_false nofun fun heq => hq (Option.some.inj heq).symm
  · show extra j = extra j + ((t.icache ip).share j - (t.icache ip).share j)
    omega

/-- The references to an inode in the cache. -/
theorem ref_eq (h : OnWay p s t extra lock) (hpos : 0 < (t.icache ip).ref) :
    (t.icache ip).ref = s.refs (t.icache ip).inum + extra (t.icache ip).inum := by
  rw [← h.refs, FsState.refs_eq_ref h.nonneg h.unique hpos]

/-- An extra reference is not the last one to an inode without links. -/
theorem lastRef_eq_false (h : OnWay p s t extra lock) (hs : s.Quiescent p)
    (hpos : 0 < (t.icache ip).ref) (hextra : 0 < extra (t.icache ip).inum)
    (hlinked : s.refs (t.icache ip).inum = 0 → (s.inodeOf (t.icache ip).inum).nlink ≠ 0) :
    t.lastRef ip = false := by
  refine Bool.eq_false_iff.mpr fun hlast => ?_
  simp only [FsState.lastRef, Bool.and_eq_true, decide_eq_true_eq] at hlast
  obtain ⟨⟨hone, hvalid⟩, hlink⟩ := hlast
  have href := h.ref_eq hpos
  have hnonneg := FsState.refs_nonneg hs.nonneg (t.icache ip).inum
  have hcontents : (t.icache ip).d = s.inodeOf (t.icache ip).inum := by
    rw [← h.contents ip hpos, Inode.contents, if_pos hvalid]
  exact hlinked (by omega) (hcontents ▸ hlink)

/-- An extra reference is dropped. -/
theorem dropRef (h : OnWay p s t extra none) (hpos : 0 < (t.icache ip).ref)
    (hextra : 0 < extra (t.icache ip).inum) :
    OnWay p s (t.setIno ip { t.icache ip with ref := (t.icache ip).ref - 1 })
      (extra - Pi.single (t.icache ip).inum 1) none := by
  refine h.setIno _ (by show 0 ≤ (t.icache ip).ref - 1; omega) (fun _ q hq => h.inum_ne hpos hq)
    (fun _ => h.contents ip hpos) (fun _ => h.unlocked ip hpos) nofun (fun _ _ => .rfl)
    (fun j => ?_) fun j => ?_
  · by_cases hj : (t.icache ip).inum = j
    · subst hj
      rw [Pi.sub_apply, Pi.single_eq_same]
      omega
    · rw [Pi.sub_apply, Pi.single_eq_of_ne' hj]
      exact Int.sub_nonneg_of_le (h.extra_nonneg j)
  · by_cases hj : (t.icache ip).inum = j
    · subst hj
      simp [Inode.share]
      omega
    · simp [Inode.share, hj]

/-- **There is room for the next inode**: the slots in use are those in use at the beginning and one
more. -/
theorem empty_ne_none (h : OnWay p s t (Pi.single i 1) lock) (hs : s.Quiescent p)
    (hroom : s.Room) : t.empty ≠ none := by
  intro hnone
  have hpos (q : Slot) : 0 < (t.icache q).ref := by
    have hne := FsState.empty_eq_none_iff.mp hnone q
    have hnonneg := h.nonneg q
    omega
  -- every slot but that of the extra reference has its inode in the cache at the beginning
  have hold (q : Slot) : (t.icache q).inum ≠ i → ∃ q', 0 < (s.icache q').ref ∧
      (s.icache q').inum = (t.icache q).inum := by
    intro hq
    have href := h.ref_eq (hpos q)
    rw [Pi.single_eq_of_ne hq] at href
    have hcached : s.cached (t.icache q).inum ≠ none := fun hc => by
      have hzero := (FsState.refs_eq_zero_iff hs.nonneg _).mpr hc
      have := hpos q
      omega
    obtain ⟨q', hq'⟩ := Option.ne_none_iff_exists'.mp hcached
    exact ⟨q', FsState.cached_eq_some hq'⟩
  choose! f hf using hold
  have hle : (Finset.univ.filter fun q => ¬ (t.icache q).inum = i).card ≤
      (Finset.univ.filter fun q => 0 < (s.icache q).ref).card := by
    refine Finset.card_le_card_of_injOn f (fun q hq => ?_) fun q hq q' hq' heq => ?_
    · simpa using (hf q (by simpa using hq)).1
    · have hinum := (hf q (by simpa using hq)).2
      rw [heq, (hf q' (by simpa using hq')).2] at hinum
      exact h.unique q q' (hpos q) (hpos q') hinum.symm
  have hone : (Finset.univ.filter fun q => (t.icache q).inum = i).card ≤ 1 := by
    refine Finset.card_le_one.mpr fun q hq q' hq' => h.unique q q' (hpos q) (hpos q') ?_
    rw [(Finset.mem_filter.mp hq).2, (Finset.mem_filter.mp hq').2]
  obtain ⟨a, b, hab, ha, hb⟩ := hroom
  have htwo : 2 ≤ (Finset.univ.filter fun q => ¬ 0 < (s.icache q).ref).card := by
    rw [← Finset.card_pair hab]
    refine Finset.card_le_card fun q hq => ?_
    rcases Finset.mem_insert.mp hq with rfl | hq
    · simp [ha]
    · rw [Finset.mem_singleton.mp hq]
      simp [hb]
  have hsum := Finset.card_filter_add_card_filter_not (s := Finset.univ)
    fun q : Slot => (t.icache q).inum = i
  have hsum' := Finset.card_filter_add_card_filter_not (s := Finset.univ)
    fun q : Slot => 0 < (s.icache q).ref
  have hcard : (Finset.univ : Finset Slot).card = 50 := by
    rw [Finset.card_univ, Fintype.card_fin]
    rfl
  omega

/-- **`iunlockput` of an inode with an extra reference.** -/
theorem alone_iunlockput {pan : String → Prop} (h : OnWay p s t extra (some ip))
    (hs : s.Quiescent p) (hextra : 0 < extra (t.icache ip).inum)
    (hlinked : s.refs (t.icache ip).inum = 0 → (s.inodeOf (t.icache ip).inum).nlink ≠ 0)
    {Q : Unit → FsState → Prop}
    (hQ : ∀ u, OnWay p s u (extra - Pi.single (t.icache ip).inum 1) none →
      (∀ q, 0 < (t.icache q).ref → (q = ip → 1 < (t.icache q).ref) →
        0 < (u.icache q).ref ∧ (u.icache q).inum = (t.icache q).inum) → Q () u) :
    Alone p pan (iunlockput ip) Q t := by
  obtain ⟨hpos, hbusy⟩ := h.locked ip rfl
  have hfree := h.unlockIno
  have hslot : (t.setIno ip { t.icache ip with busy := none }).icache ip =
      { t.icache ip with busy := none } := t.icache_setIno_self ip _
  have hfreepos : 0 < ((t.setIno ip { t.icache ip with busy := none }).icache ip).ref := by
    rw [hslot]
    exact hpos
  have hlast := hfree.lastRef_eq_false hs hfreepos (by rw [hslot]; exact hextra)
    (by rw [hslot]; exact hlinked)
  have hdrop := hfree.dropRef hfreepos (by rw [hslot]; exact hextra)
  unfold iunlockput
  rw [alone_bind, alone_iunlock (by omega) hbusy, alone_iput hlast]
  rw [hslot] at hdrop ⊢
  refine hQ _ hdrop fun q hq hqip => ?_
  rw [FsState.setIno_setIno]
  by_cases hne : q = ip
  · subst hne
    rw [t.icache_setIno_self]
    exact ⟨by have := hqip rfl; show 0 < (t.icache q).ref - 1; omega, rfl⟩
  · rw [t.icache_setIno_of_ne _ hne]
    exact ⟨hq, rfl⟩

end OnWay

/-! ## The loop -/

/-- **What a call leaves behind**: a reference to the inode it returns, and nothing else. -/
structure Arrives (s t : FsState) (ip : Option Slot) (i : Option Nat) : Prop where
  inum : ip.map (fun q => (t.icache q).inum) = i
  disk : t.disk = s.disk
  refs : ∀ j, t.refs j = s.refs j + if i = some j then 1 else 0

variable {p : Pid} {s t : FsState}

theorem OnWay.arrives {ip : Slot} {i : Nat} (h : OnWay p s t (Pi.single i 1) none)
    (hinum : (t.icache ip).inum = i) :
    Arrives s t (some ip) (some i) where
  inum := congrArg some hinum
  disk := h.disk
  refs j := by
    rw [h.refs, Pi.single_apply]
    simp only [Option.some.injEq, eq_comm]

theorem OnWay.arrives_none {extra : Nat → Int} (h : OnWay p s t extra none) (hextra : extra = 0) :
    Arrives s t none none where
  inum := rfl
  disk := h.disk
  refs j := by
    rw [h.refs, hextra]
    rfl

/-- The inode that `namex` returns. -/
def FsState.destination (s : FsState) (parent : Bool) (i : Nat) (names : List (List UInt8)) :
    Option (Nat × List UInt8) :=
  if parent then s.resolveParent i names
  else (s.resolve i names).map fun j => (j, [])

namespace FsState

variable {s : FsState} {i : Nat} (name : List UInt8) (names : List (List UInt8))

theorem destination_cons {parent : Bool} (hgo : ¬ (parent = true ∧ names = [])) :
    s.destination parent i (name :: names) =
      (s.lookup i name).bind fun j => s.destination parent j names := by
  cases parent with
  | true => exact s.resolveParent_cons i name names fun hnil => hgo ⟨rfl, hnil⟩
  | false =>
      show (s.resolve i (name :: names)).map _ = _
      rw [resolve_cons, Option.map_bind]
      rfl

/-- A path that goes on from what is no directory leads nowhere. -/
theorem destination_of_not_isDir {parent : Bool} (hdir : ¬ s.IsDir i) :
    s.destination parent i (name :: names) = none := by
  by_cases hgo : parent = true ∧ names = []
  · obtain ⟨rfl, rfl⟩ := hgo
    exact (s.resolveParent_single i name).trans (if_neg hdir)
  · rw [destination_cons name names hgo, lookup_of_not_isDir name hdir]
    rfl

end FsState

/-- The entries of what can be reached can be reached. -/
theorem reachable_lookup {s : FsState} {i j : Nat} {name : List UInt8} (h : s.Reachable p i)
    (hj : s.lookup i name = some j) : s.Reachable p j := by
  by_cases hdir : s.IsDir i
  · rw [FsState.lookup_of_isDir name hdir] at hj
    obtain ⟨e, he, rfl, hused⟩ := mem_of_numberIn hj
    exact .entry h hdir he hused
  · rw [FsState.lookup_of_not_isDir name hdir] at hj
    cases hj

/-- What the body of the loop of `namex` does with the directory `ip` locked and read in. -/
def namexTail (nameiparent : Bool) (fuel : Nat) (ip : Slot) (d : Dinode) (name rest : List UInt8) :
    FsProg (Option (Slot × List UInt8)) :=
  if d.type ≠ T_DIR then do
    iunlockput ip
    pure none
  else if nameiparent ∧ rest = [] then do
    iunlock ip
    pure (some (ip, name))
  else do
    let next ← dirlookup ip name
    match next with
    | none => do
        iunlockput ip
        pure none
    | some (next, _) => do
        iunlockput ip
        namexLoop nameiparent fuel next rest name

/-- The body of the loop, up to the point where the directory is locked. -/
theorem alone_namexLoop_succ (pan : String → Prop) {ip : Slot}
    (h : OnWay p s t (Pi.single (t.icache ip).inum 1) none) (hpos : 0 < (t.icache ip).ref)
    (htype : (s.inodeOf (t.icache ip).inum).type ≠ 0) {path name rest : List UInt8}
    (hskip : skipelem path = some (name, rest)) (parent : Bool) (fuel : Nat) (last : List UInt8) :
    ∃ u, OnWay p s u (Pi.single (u.icache ip).inum 1) (some ip) ∧
      (u.icache ip).d = s.inodeOf (u.icache ip).inum ∧
      (∀ q, (u.icache q).inum = (t.icache q).inum ∧ (u.icache q).ref = (t.icache q).ref) ∧
      ∀ Q, Alone p pan (namexLoop parent (fuel + 1) ip path last) Q t ↔
        Alone p pan (namexTail parent fuel ip (s.inodeOf (u.icache ip).inum) name rest) Q u := by
  have hcontents : Inode.contents t.disk (t.icache ip) = s.inodeOf (t.icache ip).inum := by
    rw [h.disk, h.contents ip hpos]
  have hslot := t.icache_setIno_self ip (Inode.locked t.disk p (t.icache ip))
  refine ⟨t.setIno ip (Inode.locked t.disk p (t.icache ip)), ?_, ?_, fun q => ?_, fun Q => ?_⟩
  · rw [hslot]
    exact h.lockIno hpos
  · rw [hslot]
    exact hcontents
  · by_cases hq : q = ip
    · subst hq
      rw [hslot]
      exact ⟨rfl, rfl⟩
    · rw [t.icache_setIno_of_ne _ hq]
      exact ⟨rfl, rfl⟩
  · rw [namexLoop, hskip]
    simp only
    rw [alone_bind, alone_ilock h.buf hpos (h.unlocked ip hpos nofun) (by rwa [hcontents]),
      alone_bind, alone_inode, hslot]
    show _ ↔ Alone p pan (namexTail parent fuel ip (s.inodeOf (t.icache ip).inum) name rest) Q _
    rw [← hcontents]
    exact .rfl

section Loop

variable {p : Pid} {pan : String → Prop} {s : FsState} (hs : s.Quiescent p)
  (hwf : s.WellFormed p) (hroom : s.Room)

include hs hwf hroom

/-- **One step of the walk**: from a directory, which is locked, to the inode of an entry. -/
theorem alone_next {u : FsState} {ip : Slot} {name : List UInt8}
    (h : OnWay p s u (Pi.single (u.icache ip).inum 1) (some ip))
    (hd : (u.icache ip).d = s.inodeOf (u.icache ip).inum) (hdir : s.IsDir (u.icache ip).inum)
    (hreach : s.Reachable p (u.icache ip).inum) (h0 : 0 ∉ name) (hlen : name.length ≤ DIRSIZ)
    {α : Type} {k : Slot → FsProg (Option α)} {Q : Option α → FsState → Prop}
    (hnone : s.lookup (u.icache ip).inum name = none → ∀ v, OnWay p s v 0 none → Q none v)
    (hsome : ∀ j, s.lookup (u.icache ip).inum name = some j → ∀ next v,
      OnWay p s v (Pi.single j 1) none → 0 < (v.icache next).ref → (v.icache next).inum = j →
        Alone p pan (k next) Q v) :
    Alone p pan (do
      let next ← dirlookup ip name
      match next with
      | none => do
          iunlockput ip
          pure none
      | some (next, _) => do
          iunlockput ip
          k next) Q u := by
  have hlookup := FsState.lookup_of_isDir name hdir
  rw [alone_bind]
  -- what follows depends on the slot of the entry only, not on its offset
  refine wp_mono (monotone_solo p) (fun r v hv => ?_) ((alone_dirlookup
    (Q := fun o v => Alone p pan (iunlockput ip)
      (fun _ => o.elim (Q none) fun next => Alone p pan (k next) Q) v)
    h.buf h0 hlen (by rw [hd]; exact hdir)
    (by rw [hd, h.disk]; exact hwf.blocks _ hreach hdir)).mpr ?_)
  · cases r with
    | none => exact alone_bind.mpr hv
    | some x => exact alone_bind.mpr hv
  rw [hd, h.disk, ← hlookup]
  cases hj : s.lookup (u.icache ip).inum name with
  | none =>
      refine h.alone_iunlockput hs (by simp) (hwf.linked _ hreach) fun v hv _ => hnone hj v ?_
      rwa [sub_self] at hv
  | some j =>
      obtain ⟨next, v, higet, hv, hpos, hnum, hkeep⟩ := h.iget hs (h.empty_ne_none hs hroom) j
      obtain ⟨hippos, hipnum⟩ := hkeep ip (h.locked ip rfl).1
      refine ⟨next, v, higet, ?_⟩
      refine hv.alone_iunlockput hs ?_ ?_ fun w hw hkeep' => ?_
      · rw [hipnum, Pi.add_apply, Pi.single_eq_same]
        have := single_one_nonneg j (u.icache ip).inum
        omega
      · rw [hipnum]
        exact hwf.linked _ hreach
      · rw [hipnum, add_sub_cancel_left] at hw
        -- if the entry is the directory itself, there are two references to it
        have htwo : next = ip → 1 < (v.icache next).ref := fun heq => by
          subst heq
          have href := hv.ref_eq hpos
          have hnonneg := FsState.refs_nonneg hs.nonneg (v.icache next).inum
          rw [Pi.add_apply, ← hipnum, ← hnum, Pi.single_eq_same] at href
          omega
        obtain ⟨hwpos, hwnum⟩ := hkeep' next hpos htwo
        exact hsome j hj next w hw hwpos (hwnum.trans hnum)

/-- **The loop of `namex`** at an inode to which it has a reference. -/
theorem alone_namexLoop (parent : Bool) {fuel : Nat} {path last : List UInt8} {ip : Slot} {i : Nat}
    {t : FsState} (hfuel : path.length < fuel) (h0 : 0 ∉ path)
    (h : OnWay p s t (Pi.single i 1) none) (hpos : 0 < (t.icache ip).ref)
    (hinum : (t.icache ip).inum = i) (hreach : s.Reachable p i) :
    Alone p pan (namexLoop parent fuel ip path last)
      (fun r u =>
        Arrives s u (r.map Prod.fst) ((s.destination parent i (elements path)).map Prod.fst) ∧
          (parent = true →
            r.map Prod.snd = (s.destination parent i (elements path)).map Prod.snd)) t := by
  induction fuel generalizing path last ip i t with
  | zero => exact absurd hfuel (Nat.not_lt_zero _)
  | succ fuel ih =>
      subst hinum
      rw [namexLoop]
      cases hskip : skipelem path with
      | none =>
          rw [elements_of_none hskip]
          cases parent with
          | false => exact ⟨h.arrives rfl, nofun⟩
          | true =>
              have hlast := h.lastRef_eq_false hs hpos (by simp) (hwf.linked _ hreach)
              have hdrop := h.dropRef hpos (by simp)
              simp only [if_true]
              rw [alone_bind, alone_iput hlast]
              exact ⟨hdrop.arrives_none (sub_self _), fun _ => rfl⟩
      | some x =>
          obtain ⟨name, rest⟩ := x
          obtain ⟨hlen, hname, hrest⟩ := skipelem_name hskip
          obtain ⟨u, hlocked, hd, hsame, hloop⟩ := alone_namexLoop_succ pan h hpos
            (hwf.type_ne _ hreach) hskip parent fuel last
          rw [elements_of_some hskip]
          rw [namexLoop, hskip] at hloop
          refine (hloop _).mpr ?_
          rw [← (hsame ip).1] at hreach ⊢
          obtain ⟨hpos, hbusy⟩ := hlocked.locked ip rfl
          unfold namexTail
          by_cases hdir : s.IsDir (u.icache ip).inum
          · have htype : (s.inodeOf (u.icache ip).inum).type = T_DIR := hdir
            rw [if_neg (not_not_intro htype)]
            by_cases hstop : parent = true ∧ rest = []
            · obtain ⟨rfl, rfl⟩ := hstop
              rw [if_pos ⟨rfl, rfl⟩, alone_bind, alone_iunlock (by omega) hbusy, elements_nil,
                FsState.destination, if_pos rfl, FsState.resolveParent_single, if_pos hdir]
              refine ⟨hlocked.unlockIno.arrives ?_, fun _ => rfl⟩
              rw [u.icache_setIno_self]
            · have hgo : ¬ (parent = true ∧ elements rest = []) := fun hnil =>
                hstop ⟨hnil.1, (elements_rest_eq_nil_iff hskip).mp hnil.2⟩
              have hshorter := length_skipelem hskip
              rw [if_neg hstop, FsState.destination_cons _ _ hgo]
              refine alone_next hs hwf hroom hlocked hd hdir hreach (fun hmem => h0 (hname hmem)) hlen
                (fun hnone v hv => ?_) fun j hj next v hv hnext hnum => ?_
              · rw [hnone]
                exact ⟨hv.arrives_none rfl, fun _ => rfl⟩
              · rw [hj]
                exact ih (by omega) (fun hmem => h0 (hrest hmem)) hv hnext hnum
                  (reachable_lookup hreach hj)
          · have htype : (s.inodeOf (u.icache ip).inum).type ≠ T_DIR := hdir
            rw [if_pos htype, FsState.destination_of_not_isDir _ _ hdir, alone_bind]
            refine hlocked.alone_iunlockput hs (by simp) (hwf.linked _ hreach) fun v hv _ => ?_
            exact ⟨hv.arrives_none (sub_self _), fun _ => rfl⟩

/-- **`namex`** from a quiescent state. -/
theorem alone_namex (parent : Bool) {path : List UInt8} (h0 : 0 ∉ path) {start : Nat}
    (hstart : s.startOf p path = some start) :
    Alone p pan (namex path parent)
      (fun r u =>
        Arrives s u (r.map Prod.fst) ((s.destination parent start (elements path)).map Prod.fst) ∧
          (parent = true →
            r.map Prod.snd = (s.destination parent start (elements path)).map Prod.snd)) s := by
  unfold namex namexStart
  rw [alone_bind]
  unfold FsState.startOf at hstart
  by_cases hslash : path.head? = some slash
  · rw [if_pos hslash] at hstart ⊢
    cases hstart
    have hempty : s.empty ≠ none := fun hnone => by
      obtain ⟨ip, _, _, hip, _⟩ := hroom
      exact FsState.empty_eq_none_iff.mp hnone ip hip
    obtain ⟨ip, t, higet, ht, hpos, hinum, -⟩ := (OnWay.start hs).iget hs hempty ROOTINO
    rw [zero_add] at ht
    exact alone_iget.mpr ⟨ip, t, higet,
      alone_namexLoop hs hwf hroom parent (Nat.lt_succ_self _) h0 ht hpos hinum .root⟩
  · rw [if_neg hslash] at hstart ⊢
    obtain ⟨ip, hcwd, hpos⟩ := hs.cwd
    rw [hcwd] at hstart
    cases hstart
    have ht := (OnWay.start hs).addRef hpos
    rw [zero_add] at ht
    rw [alone_bind, alone_cwd hcwd, alone_bind, alone_idup]
    refine alone_namexLoop hs hwf hroom parent (Nat.lt_succ_self _) h0 ht ?_ ?_ (.cwd hcwd)
    · rw [s.icache_setIno_self]
      show 0 < (s.icache ip).ref + 1
      omega
    · rw [s.icache_setIno_self]

end Loop

/-- **Path resolution is component-wise**, in a quiescent state with room for two more inodes in the
cache. The elements of a path are its nonempty pieces between slashes, cut to the length of a name;
`namei` finds what the left fold of directory lookup over them finds, and nothing exactly if it meets
what is no directory or a name that is absent; `nameiparent` finds the directory before the last
element, together with that element, and nothing if there is none; and the two agree. No reference
count changes but that of the inode returned. -/
theorem namei_elementwise (p : Pid) (s : FsState) (hs : s.Quiescent p) (hwf : s.WellFormed p)
    (hroom : s.Room) (path : List UInt8) (h0 : 0 ∉ path) :
    skipelems path = elements path ∧ ∃ start, s.startOf p path = some start ∧
      Alone p (fun _ => False) (namei path)
        (fun r t => Arrives s t r (s.resolve start (elements path))) s ∧
      (s.resolve start (elements path) = none ↔
        ∃ before name after j, elements path = before ++ name :: after ∧
          s.resolve start before = some j ∧
            (¬ s.IsDir j ∨ numberIn name (entries s.disk (s.inodeOf j)) = none)) ∧
      Alone p (fun _ => False) (nameiparent path)
        (fun r t =>
          Arrives s t (r.map Prod.fst) ((s.resolveParent start (elements path)).map Prod.fst) ∧
            r.map Prod.snd = (s.resolveParent start (elements path)).map Prod.snd) s ∧
      (elements path = [] → s.resolveParent start (elements path) = none) ∧
      (elements path ≠ [] → s.resolve start (elements path) =
        (s.resolveParent start (elements path)).bind fun x => s.lookup x.1 x.2) := by
  obtain ⟨start, hstart⟩ : ∃ start, s.startOf p path = some start := by
    obtain ⟨ip, hcwd, -⟩ := hs.cwd
    unfold FsState.startOf
    rw [hcwd]
    split
    · exact ⟨_, rfl⟩
    · exact ⟨_, rfl⟩
  refine ⟨skipelems_eq path, start, hstart, ?_, FsState.resolve_eq_none_iff, ?_, ?_,
    FsState.resolve_eq_lookup_parent⟩
  · unfold namei
    rw [alone_bind]
    refine wp_mono (monotone_solo p) (fun r t h => ?_) (alone_namex hs hwf hroom false h0 hstart)
    have hmap : (s.destination false start (elements path)).map Prod.fst =
        s.resolve start (elements path) := by
      simp [FsState.destination, Function.comp_def]
    rw [hmap] at h
    exact h.1
  · exact wp_mono (monotone_solo p) (fun r t h => ⟨h.1, h.2 rfl⟩)
      (alone_namex hs hwf hroom true h0 hstart)
  · intro hnil
    rw [hnil]
    rfl

/-! ## A directory with one file -/

/-- A file with one link. -/
def plainInode : Dinode := { Dinode.blank T_FILE with nlink := 1 }

/-- A directory of one block. -/
def oneBlockInode : Dinode :=
  { Dinode.blank T_DIR with nlink := 1, size := 512, addrs := fun k => if k = 0 then 40 else 0 }

/-- A disk whose root directory has the one entry `a`, which is the file of number 60. -/
def oneFileDisk : Disk := fun n =>
  if n = 2 then putDinode Bytes.zero 1 oneBlockInode
  else if n = 9 then putDinode Bytes.zero 60 plainInode
  else if n = 40 then Bytes.zero.blit 0 (direntBytes ⟨60, [97]⟩)
  else Bytes.zero

/-- The state with that disk in which the root directory is the current directory of every process,
and the first `n` slots of the inode cache are in use. -/
def oneFileState (n : Nat) : FsState :=
  { FsState.boot oneFileDisk with
    icache := fun ip =>
      if ip.val = 0 then ⟨1, 1, none, true, oneBlockInode⟩
      else if ip.val < n then ⟨100 + ip.val, 1, none, true, plainInode⟩
      else ⟨0, 0, none, false, Dinode.blank 0⟩
    cwd := fun _ => some firstSlot }

namespace OneFile

variable (n : Nat) (p : Pid)

theorem quiescent : (oneFileState n).Quiescent p := by
  have hslot (ip : Slot) : ((oneFileState n).icache ip).busy = none ∧
      0 ≤ ((oneFileState n).icache ip).ref ∧ (0 < ((oneFileState n).icache ip).ref →
        ((oneFileState n).icache ip).inum = if ip.val = 0 then 1 else 100 + ip.val) := by
    simp only [oneFileState]
    split
    · exact ⟨rfl, Int.one_nonneg, fun _ => rfl⟩
    · split
      · exact ⟨rfl, Int.one_nonneg, fun _ => rfl⟩
      · exact ⟨rfl, Int.le_refl 0, fun h => absurd h (Int.lt_irrefl 0)⟩
  refine ⟨fun _ => rfl, fun ip => (hslot ip).2.1, fun ip _ => (hslot ip).1, fun ip ip' h h' heq => ?_,
    firstSlot, rfl, Int.one_pos⟩
  rw [(hslot ip).2.2 h, (hslot ip').2.2 h'] at heq
  apply Fin.ext
  split at heq <;> split at heq <;> omega

theorem inodeOf_root : (oneFileState n).inodeOf 1 = oneBlockInode := by
  have hpos : 0 < ((oneFileState n).icache firstSlot).ref := Int.one_pos
  exact FsState.inodeOf_slot (quiescent n initproc).unique hpos

theorem cached_file : (oneFileState n).cached 60 = none := by
  refine FsState.cached_eq_none_iff.mpr fun ip _ => ?_
  simp only [oneFileState]
  split
  · decide
  · split
    · show 100 + ip.val ≠ 60
      omega
    · decide

theorem inodeOf_file : (oneFileState n).inodeOf 60 = plainInode := by
  rw [FsState.inodeOf_of_cached_eq_none (cached_file n)]
  exact dinodeAt_putDinode_self _ _ _

theorem entries_root : ∀ e ∈ entries oneFileDisk oneBlockInode, e.inum = 0 ∨ e.inum = 60 := by
  decide +kernel

/-- Only the root directory and the file can be reached. -/
theorem reachable_cases {i : Nat} (h : (oneFileState n).Reachable p i) : i = 1 ∨ i = 60 := by
  induction h with
  | root => exact .inl rfl
  | cwd hcwd =>
      cases hcwd
      exact .inl rfl
  | entry _ hdir he hused ih =>
      rcases ih with rfl | rfl
      · rw [inodeOf_root] at he
        exact .inr ((entries_root _ he).resolve_left hused)
      · rw [FsState.IsDir, inodeOf_file] at hdir
        exact absurd hdir (by decide)

theorem wellFormed : (oneFileState n).WellFormed p := by
  have hcases {P : Dinode → Prop} (hroot : P oneBlockInode) (hfile : P plainInode) (i : Nat)
      (hi : (oneFileState n).Reachable p i) : P ((oneFileState n).inodeOf i) := by
    rcases reachable_cases n p hi with rfl | rfl
    · rwa [inodeOf_root]
    · rwa [inodeOf_file]
  refine ⟨hcases (P := fun d => d.type ≠ 0) (by decide) (by decide),
    hcases (P := fun d => d.type = T_DIR → ∀ k < dirBlocks d, blockNo oneFileDisk d k ≠ 0) ?_ ?_,
    fun i hi _ => hcases (P := fun d => d.nlink ≠ 0) (by decide) (by decide) i hi⟩
  · exact fun _ => by decide +kernel
  · exact fun h => absurd h (by decide)

theorem lookup_a : (oneFileState n).lookup 1 [97] = some 60 := by
  have hdir : (oneFileState n).IsDir 1 := by
    rw [FsState.IsDir, inodeOf_root]
    rfl
  rw [FsState.lookup_of_isDir _ hdir, inodeOf_root]
  show numberIn [97] (entries oneFileDisk oneBlockInode) = some 60
  decide +kernel

end OneFile

/-- **Without a slot for the next inode** the loop does not get past a directory. -/
theorem not_alone_namexLoop {pan : String → Prop} (hwf : s.WellFormed p) {fuel : Nat}
    {path last name rest : List UInt8} {ip : Slot} {j : Nat}
    (h : OnWay p s t (Pi.single (t.icache ip).inum 1) none) (hpos : 0 < (t.icache ip).ref)
    (hreach : s.Reachable p (t.icache ip).inum) (h0 : 0 ∉ path)
    (hskip : skipelem path = some (name, rest)) (hj : s.lookup (t.icache ip).inum name = some j)
    (hcached : t.cached j = none) (hfull : t.empty = none)
    {Q : Option (Slot × List UInt8) → FsState → Prop} :
    ¬ Alone p pan (namexLoop false (fuel + 1) ip path last) Q t := by
  intro halone
  obtain ⟨hlen, hname, -⟩ := skipelem_name hskip
  obtain ⟨u, hlocked, hd, hsame, hloop⟩ := alone_namexLoop_succ pan h hpos
    (hwf.type_ne _ hreach) hskip false fuel last
  rw [hloop] at halone
  rw [← (hsame ip).1] at hreach hj
  have hdir : s.IsDir (u.icache ip).inum := by
    by_contra hdir
    rw [FsState.lookup_of_not_isDir name hdir] at hj
    cases hj
  have htype : (s.inodeOf (u.icache ip).inum).type = T_DIR := hdir
  unfold namexTail at halone
  rw [if_neg (not_not_intro htype), if_neg (by simp), alone_bind] at halone
  have hfound := (alone_dirlookup (Q := fun _ _ => True) hlocked.buf (fun hmem => h0 (hname hmem))
    hlen (by rw [hd]; exact hdir) (by rw [hd, hlocked.disk]; exact hwf.blocks _ hreach hdir)).mp
    (wp_mono (monotone_solo p) (fun _ _ _ => trivial) halone)
  rw [hd, hlocked.disk, ← FsState.lookup_of_isDir name hdir, hj] at hfound
  obtain ⟨next, v, higet, -⟩ := hfound
  have hcached' : u.cached j = none := FsState.cached_eq_none_iff.mpr fun q hq => by
    rw [(hsame q).1]
    exact FsState.cached_eq_none_iff.mp hcached q ((hsame q).2 ▸ hq)
  have hfull' : u.empty = none := FsState.empty_eq_none_iff.mpr fun q => by
    rw [(hsame q).2]
    exact FsState.empty_eq_none_iff.mp hfull q
  rw [FsState.iget, hcached', hfull'] at higet
  cases higet

/-- The path `/a`. -/
def slashA : List UInt8 := [47, 97]

/-- **A full inode cache**: all fifty slots are in use, and looking up a file that is not in the cache
ends in the panic of `iget`. -/
theorem namei_fullCache :
    (oneFileState 50).Quiescent initproc ∧ (oneFileState 50).WellFormed initproc ∧
      (oneFileState 50).resolve 1 (elements slashA) = some 60 ∧
      ¬ Alone initproc (fun _ => False) (namei slashA) (fun _ _ => True) (oneFileState 50) := by
  have hs := OneFile.quiescent 50 initproc
  have hwf := OneFile.wellFormed 50 initproc
  have helems : elements slashA = [[97]] := by decide
  have hresolve : (oneFileState 50).resolve 1 (elements slashA) = some 60 := by
    rw [helems, FsState.resolve_cons, OneFile.lookup_a]
    rfl
  refine ⟨hs, hwf, hresolve, fun h => ?_⟩
  unfold namei namex namexStart at h
  rw [alone_bind, alone_bind, if_pos (by decide), alone_iget] at h
  obtain ⟨ip, t, higet, hloop⟩ := h
  -- the root directory is in the cache, with one reference more from now on
  have hcached : (oneFileState 50).cached 1 = some firstSlot := by decide +kernel
  have hfull (q : Slot) : 0 < ((oneFileState 50).icache q).ref := by
    simp only [oneFileState]
    split
    · exact Int.one_pos
    · rw [if_pos (show q.val < 50 from q.isLt)]
      exact Int.one_pos
  rw [FsState.iget, ROOTINO, hcached] at higet
  cases higet
  have ht := (OnWay.start hs).addRef (hfull firstSlot)
  rw [zero_add] at ht
  obtain ⟨t, htdef⟩ : ∃ t, t = (oneFileState 50).setIno firstSlot
    { (oneFileState 50).icache firstSlot with ref := ((oneFileState 50).icache firstSlot).ref + 1 } :=
      ⟨_, rfl⟩
  have hkeep (q : Slot) : (t.icache q).inum = ((oneFileState 50).icache q).inum ∧
      0 < (t.icache q).ref := by
    rw [htdef]
    by_cases hne : q = firstSlot
    · subst hne
      rw [FsState.icache_setIno_self]
      exact ⟨rfl, by decide⟩
    · rw [FsState.icache_setIno_of_ne _ _ hne]
      exact ⟨rfl, hfull q⟩
  rw [← htdef] at ht hloop
  rw [← (hkeep firstSlot).1] at ht
  have hskip : skipelem slashA = some ([97], []) := by decide
  refine not_alone_namexLoop hwf ht (hkeep _).2 ?_ (by decide) hskip (j := 60) ?_ ?_ ?_ hloop
  · rw [(hkeep _).1]
    exact .root
  · rw [(hkeep _).1]
    exact OneFile.lookup_a 50
  · refine FsState.cached_eq_none_iff.mpr fun q _ => ?_
    rw [(hkeep q).1]
    exact FsState.cached_eq_none_iff.mp (OneFile.cached_file 50) q (hfull q)
  · exact FsState.empty_eq_none_iff.mpr fun q => Int.ne_of_gt (hkeep q).2

/-- The file is found while the cache has room. -/
theorem namei_elementwise_roomy :
    ∃ s : FsState, s.Quiescent initproc ∧ s.WellFormed initproc ∧ s.Room ∧
      ∃ start, s.startOf initproc slashA = some start ∧
        s.resolve start (elements slashA) = some 60 ∧
          Alone initproc (fun _ => False) (namei slashA)
            (fun r t => Arrives s t r (s.resolve start (elements slashA))) s := by
  have hs := OneFile.quiescent 1 initproc
  have hwf := OneFile.wellFormed 1 initproc
  have hroom : (oneFileState 1).Room :=
    ⟨⟨1, by decide⟩, ⟨2, by decide⟩, by decide, rfl, rfl⟩
  obtain ⟨-, start, hstart, hnamei, -⟩ :=
    namei_elementwise initproc (oneFileState 1) hs hwf hroom slashA (by decide)
  have hroot : some start = some 1 := hstart.symm
  cases hroot
  refine ⟨_, hs, hwf, hroom, 1, hstart, ?_, hnamei⟩
  have helems : elements slashA = [[97]] := by decide
  rw [helems, FsState.resolve_cons, OneFile.lookup_a]
  rfl

end Xv6

import Xv6.Fs.Owned
import Xv6.Fs.Namei

/-! # Programs that are careful with buffers

A process must not ask for a buffer that it holds already: it would wait for itself. Here is the
specification of the actions that forbids this, with at most one other buffer held, and what the
functions of `fs.c` need in order to meet it. It says nothing about waiting for other processes: an
action without an outcome ends the execution. -/

namespace Xv6

open Lib Fs Prog

/-- Assign to the part of a cached inode that is copied from the disk. -/
def FsState.setCopy (s : FsState) (ip : Slot) (d : Dinode) : FsState :=
  s.setIno ip { s.icache ip with d := d }

/-- The slot has a referenced inode whose contents are there. -/
structure FsState.InUse (s : FsState) (ip : Slot) : Prop where
  ref : 0 < (s.icache ip).ref
  valid : (s.icache ip).valid = true

theorem icache_setCopy (s : FsState) (ip : Slot) (d : Dinode) :
    (s.setCopy ip d).icache ip = { s.icache ip with d := d } := Function.update_self ..

theorem inum_setCopy (s : FsState) (ip : Slot) (d : Dinode) :
    ((s.setCopy ip d).icache ip).inum = (s.icache ip).inum := by rw [icache_setCopy]

theorem FsState.InUse.setCopy {s : FsState} {ip : Slot} (h : s.InUse ip) (d : Dinode) :
    (s.setCopy ip d).InUse ip := by
  constructor
  · rw [icache_setCopy]
    exact h.ref
  · rw [icache_setCopy]
    exact h.valid

/-- A process asks only for a buffer that it does not hold, with at most one other one in its hands,
and it uses only buffers that it holds. -/
def Act.Careful (p : Pid) (s : FsState) : Act → Prop
  | .bread n => s.buf n ≠ some p ∧ ∃ x, ∀ m, s.buf m = some p → m = x
  | .bwrite n _ => s.buf n = some p
  | .brelse n => s.buf n = some p
  | _ => True

/-- **The actions of a careful process.** -/
def guardSpec (p : Pid) : Spec Act Act.Resp FsState := fun a Q s =>
  a.Careful p s ∧ ∀ b t, a.step p s b t → Q b t

/-- The program, run by `p` from `s`, is careful with buffers, and if it ends then as `Q` says. -/
abbrev Guarded {α : Type} (p : Pid) (prog : FsProg α) (Q : α → FsState → Prop) (s : FsState) : Prop :=
  wp (guardSpec p) (fun _ => True) prog Q s

theorem monotone_guardSpec (p : Pid) : Monotone (guardSpec p) :=
  fun _ _ _ _ hQ h => ⟨h.1, fun b t hstep => hQ b t (h.2 b t hstep)⟩

section Rules

variable {α β : Type} {p : Pid} {s : FsState}

variable {prog : FsProg α}

theorem guarded_bind {k : α → FsProg β} {Q : β → FsState → Prop} :
    Guarded p (prog >>= k) Q s ↔ Guarded p prog (fun x => Guarded p (k x) Q) s := by
  rw [Guarded, wp_bind]

theorem Guarded.mono {Q Q' : α → FsState → Prop} (h : Guarded p prog Q s)
    (hQ : ∀ x t, Q x t → Q' x t) : Guarded p prog Q' s :=
  wp_mono (monotone_guardSpec p) hQ h

/-- **Sequencing.** -/
theorem Guarded.bind {k : α → FsProg β} {Q : α → FsState → Prop} {Q' : β → FsState → Prop}
    (h : Guarded p prog Q s) (hk : ∀ x t, Q x t → Guarded p (k x) Q' t) :
    Guarded p (prog >>= k) Q' s :=
  guarded_bind.mpr (h.mono hk)

/-- An action without a condition. -/
theorem guarded_doAct (a : Act) (ha : a.Careful p s) {Q : a.Resp → FsState → Prop}
    (hQ : ∀ b t, a.step p s b t → Q b t) : Guarded p (doAct a) Q s := ⟨ha, hQ⟩

end Rules

/-- **What `iget` does**: one more reference to the slot of the inode, or an empty slot for it. -/
theorem FsState.iget_cases {s t : FsState} {i : Nat} {ip : Slot} (h : s.iget i = some (ip, t)) :
    (0 < (s.icache ip).ref ∧ (s.icache ip).inum = i ∧
        t = s.setIno ip { s.icache ip with ref := (s.icache ip).ref + 1 }) ∨
      ((s.icache ip).ref = 0 ∧ (∀ ip', 0 < (s.icache ip').ref → (s.icache ip').inum ≠ i) ∧
        t = s.setIno ip { s.icache ip with inum := i, ref := 1, busy := none, valid := false }) := by
  unfold FsState.iget at h
  cases hc : s.cached i with
  | some ip' =>
      rw [hc] at h
      cases h
      obtain ⟨href, hinum⟩ := cached_eq_some hc
      exact .inl ⟨href, hinum, rfl⟩
  | none =>
      rw [hc] at h
      obtain ⟨ip', he, heq⟩ := Option.map_eq_some_iff.mp h
      cases heq
      exact .inr ⟨empty_eq_some he, cached_eq_none_iff.mp hc, rfl⟩

theorem FsState.buf_iget {s t : FsState} {i : Nat} {ip : Slot} (h : s.iget i = some (ip, t)) :
    t.buf = s.buf := by
  rcases iget_cases h with ⟨-, -, rfl⟩ | ⟨-, -, rfl⟩ <;> rfl

namespace Fs

variable {p : Pid} {s : FsState} {x : Option Nat} {n : Nat} {data : Block}

/-- The process holds no other buffer than `x`. -/
def Only (p : Pid) (s : FsState) (x : Option Nat) : Prop := ∀ m, s.buf m = some p → x = some m

/-- After a `bread`. -/
theorem Only.setBuf (hx : Only p s none) (n : Nat) : Only p (s.setBuf n (some p)) (some n) := by
  intro m hm
  by_contra hne
  rw [show (s.setBuf n (some p)).buf m = s.buf m from
    Function.update_of_ne (fun heq => hne (congrArg some heq.symm)) ..] at hm
  exact absurd (hx m hm) (by nofun)

theorem guarded_bread (hx : Only p s x) (hn : x ≠ some n) {Q : Block → FsState → Prop}
    (hQ : s.buf n = none → Q (s.disk n) (s.setBuf n (some p))) : Guarded p (bread n) Q s := by
  refine guarded_doAct (.bread n) ⟨fun h => hn (hx n h), x.getD 0, fun m hm => ?_⟩ ?_
  · rw [hx m hm]
    rfl
  · rintro b t ⟨hfree, rfl, rfl⟩
    exact hQ hfree

variable {Q : Unit → FsState → Prop} {sb : Superblock}

theorem guarded_bwrite (hQ : Q () ((s.write n data).setBuf n (some p))) :
    Guarded p (bwrite n data) Q (s.setBuf n (some p)) := by
  refine guarded_doAct (.bwrite n data) (FsState.buf_setBuf ..) ?_
  rintro b t ⟨-, rfl⟩
  exact hQ

theorem guarded_brelse (hn : s.buf n = none) (hQ : Q () s) :
    Guarded p (brelse n) Q (s.setBuf n (some p)) := by
  refine guarded_doAct (.brelse n) (FsState.buf_setBuf ..) ?_
  rintro b t ⟨-, rfl⟩
  rwa [FsState.setBuf_setBuf hn]

/-! ## Blocks -/

theorem guarded_readsb (hx : Only p s x) (h1 : x ≠ some 1) {Q : Superblock → FsState → Prop}
    (hQ : Q (superblockOf (s.disk 1)) s) : Guarded p readsb Q s := by
  refine guarded_bind.mpr (guarded_bread hx h1 fun hfree => ?_)
  exact guarded_bind.mpr (guarded_brelse hfree hQ)

/-- A block is read and written back. -/
theorem guarded_update (hx : Only p s x) (hn : x ≠ some n) (f : Block → Block)
    (hQ : Q () (s.write n (f (s.disk n)))) :
    Guarded p (do
      let bp ← bread n
      bwrite n (f bp)
      brelse n) Q s := by
  refine guarded_bind.mpr (guarded_bread hx hn fun hfree => ?_)
  exact guarded_bind.mpr (guarded_bwrite (guarded_brelse (s := s.write _ _) hfree hQ))

theorem guarded_ballocLoop (hx : Only p s x)
    (hxb : ∀ b, Scanned sb b → x ≠ some (BBLOCK b sb.ninodes)) {n m : Nat}
    (hbefore : ∀ j < m * BPB, bit s.disk sb j = true) {Q : Nat → FsState → Prop}
    (hQ : ∀ b, FirstClear s.disk sb b → Q b (ballocTake s sb b)) :
    Guarded p (ballocLoop sb n (m * BPB)) Q s := by
  induction n generalizing m with
  | zero => exact trivial
  | succ n ih =>
      unfold ballocLoop
      split
      · next hlt =>
          have hscan : Scanned sb (m * BPB) := by
            unfold Scanned
            rwa [Nat.mul_div_cancel _ bpb_pos]
          refine guarded_bind.mpr (guarded_bread hx (hxb _ hscan) fun hfree => ?_)
          cases hfind : findClear (s.disk (BBLOCK (m * BPB) sb.ninodes)) BPB 0 with
          | some bi =>
              obtain ⟨hbi, hb⟩ := firstClear_of_findClear hlt hbefore hfind
              refine guarded_bind.mpr (guarded_bwrite (guarded_bind.mpr
                (guarded_brelse (s := s.write _ _) hfree ?_)))
              rw [write_setBit s hbi]
              exact hQ _ hb
          | none =>
              refine guarded_bind.mpr (guarded_brelse hfree ?_)
              rw [show m * BPB + BPB = (m + 1) * BPB by rw [Nat.add_mul, Nat.one_mul]]
              exact ih (set_of_findClear hbefore hfind)
      · exact trivial

/-- **`balloc`** while at most a block is held that is none of those it reads. -/
theorem guarded_balloc (hsb : superblockOf (s.disk 1) = sb) (hx : Only p s x) (h1 : x ≠ some 1)
    (hxb : ∀ b, Scanned sb b → x ≠ some (BBLOCK b sb.ninodes)) {Q : Nat → FsState → Prop}
    (hQ : ∀ b, FirstClear s.disk sb b → Q b (ballocTake s sb b)) :
    Guarded p balloc Q s := by
  refine guarded_bind.mpr (guarded_readsb hx h1 ?_)
  rw [hsb]
  have hloop : Guarded p (ballocLoop sb (sb.size / BPB + 1) (0 * BPB)) Q s :=
    guarded_ballocLoop hx hxb (fun j hj => absurd hj (by omega)) hQ
  rwa [Nat.zero_mul] at hloop

/-- **`bfree`**, likewise. -/
theorem guarded_bfree {b : Nat} (hsb : superblockOf ((s.write b Bytes.zero).disk 1) = sb)
    (hx : Only p s x) (hb : x ≠ some b) (h1 : x ≠ some 1) (hxb : x ≠ some (BBLOCK b sb.ninodes))
    (hQ : Q () { s with disk := bfreed s.disk sb b }) : Guarded p (bfree b) Q s := by
  refine guarded_bind.mpr (guarded_update hx hb (fun _ => Bytes.zero) ?_)
  have hx' : Only p (s.write b Bytes.zero) x := hx
  refine guarded_bind.mpr (guarded_readsb hx' h1 ?_)
  rw [hsb]
  refine guarded_bind.mpr (guarded_bread hx' hxb fun hfree => ?_)
  split
  · exact guarded_bind.mpr (guarded_bwrite (guarded_brelse (s := { s with disk := bfreed s.disk sb b }) hfree hQ))
  · exact trivial

/-! ## Inodes -/

theorem guarded_iget {i : Nat} {Q : Slot → FsState → Prop}
    (hQ : ∀ ip t, s.iget i = some (ip, t) → Q ip t) : Guarded p (iget i) Q s :=
  guarded_doAct (.iget i) trivial hQ

theorem guarded_inode {ip : Slot} {Q : Inode → FsState → Prop} (hQ : Q (s.icache ip) s) :
    Guarded p (inode ip) Q s := by
  refine guarded_doAct (.inode ip) trivial ?_
  rintro b t ⟨rfl, rfl⟩
  exact hQ

theorem guarded_setInode {ip : Slot} {d : Dinode} (hQ : Q () (s.setCopy ip d)) :
    Guarded p (setInode ip d) Q s := by
  refine guarded_doAct (.setInode ip d) trivial ?_
  rintro b t rfl
  exact hQ

theorem guarded_iallocLoop {type : Int16} {n inum : Nat} (hx : Only p s none)
    {Q : Slot → FsState → Prop} (hQ : ∀ ip t, t.buf = s.buf → Q ip t) :
    Guarded p (iallocLoop type n inum) Q s := by
  induction n generalizing inum with
  | zero => exact trivial
  | succ n ih =>
      refine guarded_bind.mpr (guarded_bread hx (by nofun) fun hfree => ?_)
      split
      · refine guarded_bind.mpr (guarded_bwrite (guarded_bind.mpr
          (guarded_brelse (s := s.write _ _) hfree (guarded_iget fun ip t ht => ?_))))
        exact hQ ip t (FsState.buf_iget (s := s.write _ _) ht)
      · exact guarded_bind.mpr (guarded_brelse hfree ih)

/-- **`iupdate`**. -/
theorem guarded_iupdate {ip : Slot} (hx : Only p s none)
    (hQ : Q () (s.write (IBLOCK (s.icache ip).inum)
      (putDinode (s.disk (IBLOCK (s.icache ip).inum)) (s.icache ip).inum (s.icache ip).d))) :
    Guarded p (iupdate ip) Q s :=
  guarded_bind.mpr (guarded_inode (guarded_update hx (by nofun) _ hQ))

end Fs

end Xv6

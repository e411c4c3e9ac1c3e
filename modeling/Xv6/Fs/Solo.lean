import Xv6.Fs.System

/-! # A process that runs alone

A program of the file layers run by one process while no other process takes a step. The
specification is total: an action must have an outcome, so a program that meets a postcondition
ends, does not wait for a lock, and panics only where that is allowed. -/

namespace Xv6

open Lib Fs Prog

/-- **The actions of a process that runs alone**: there is an outcome, and every outcome is provided
for. -/
def solo (p : Pid) : Spec Act Act.Resp FsState := fun a Q s =>
  (∃ b t, a.step p s b t) ∧ ∀ b t, a.step p s b t → Q b t

/-- The program, run by `p` alone from `s`, ends as `Q` says or with a panic allowed by `pan`. -/
abbrev Alone {α : Type} (p : Pid) (pan : String → Prop) (prog : FsProg α)
    (Q : α → FsState → Prop) (s : FsState) : Prop :=
  wp (solo p) pan prog Q s

variable {α β : Type} {p : Pid} {pan : String → Prop} {s : FsState}

theorem alone_bind {prog : FsProg α} {k : α → FsProg β} {Q : β → FsState → Prop} :
    Alone p pan (prog >>= k) Q s ↔ Alone p pan prog (fun x => Alone p pan (k x) Q) s := by
  rw [Alone, wp_bind]

/-- An action with exactly one outcome. -/
theorem alone_of_step (a : Act) {b : a.Resp} {t : FsState} (h : a.step p s b t)
    (huniq : ∀ b' t', a.step p s b' t' → b' = b ∧ t' = t) {Q : a.Resp → FsState → Prop} :
    Alone p pan (doAct a) Q s ↔ Q b t := by
  constructor
  · exact fun hQ => hQ.2 b t h
  · refine fun hQ => ⟨⟨b, t, h⟩, fun b' t' h' => ?_⟩
    obtain ⟨rfl, rfl⟩ := huniq b' t' h'
    exact hQ

/-- `bread` of a buffer that nobody holds. -/
theorem alone_bread {n : Nat} (hn : s.buf n = none) {Q : Block → FsState → Prop} :
    Alone p pan (bread n) Q s ↔ Q (s.disk n) (s.setBuf n (some p)) :=
  alone_of_step (.bread n) ⟨hn, rfl, rfl⟩ fun _ _ h => h.2

variable {Q : Unit → FsState → Prop} {ip : Slot}

theorem alone_bwrite {n : Nat} {data : Block} (hn : s.buf n ≠ none) :
    Alone p pan (bwrite n data) Q s ↔ Q () (s.write n data) :=
  alone_of_step (.bwrite n data) ⟨hn, rfl⟩ fun _ _ h => ⟨rfl, h.2⟩

theorem alone_brelse {n : Nat} (hn : s.buf n ≠ none) :
    Alone p pan (brelse n) Q s ↔ Q () (s.setBuf n none) :=
  alone_of_step (.brelse n) ⟨hn, rfl⟩ fun _ _ h => ⟨rfl, h.2⟩

theorem monotone_solo (p : Pid) : Monotone (solo p) :=
  fun _ _ _ _ hQ h => ⟨h.1, fun b t hstep => hQ b t (h.2 b t hstep)⟩

/-! ## The inode cache -/

/-- `iget` panics if it finds no slot. -/
theorem alone_iget {i : Nat} {Q : Slot → FsState → Prop} :
    Alone p pan (Fs.iget i) Q s ↔ ∃ ip t, s.iget i = some (ip, t) ∧ Q ip t := by
  constructor
  · rintro ⟨⟨ip, t, h⟩, hQ⟩
    exact ⟨ip, t, h, hQ ip t h⟩
  · rintro ⟨ip, t, h, hQ⟩
    exact (alone_of_step (.iget i) (b := ip) h fun b' t' h' => by
      cases h.symm.trans h'
      exact ⟨rfl, rfl⟩).mpr hQ

theorem alone_idup :
    Alone p pan (idup ip) Q s ↔
      Q () (s.setIno ip { s.icache ip with ref := (s.icache ip).ref + 1 }) :=
  alone_of_step (.idup ip) (b := ()) rfl fun _ _ h => ⟨rfl, h⟩

theorem alone_cwd (h : s.cwd p = some ip) {Q : Slot → FsState → Prop} :
    Alone p pan cwd Q s ↔ Q ip s :=
  alone_of_step .cwd (b := ip) ⟨h, rfl⟩ fun _ _ h' => ⟨Option.some.inj (h'.1.symm.trans h), h'.2⟩

theorem alone_inode {Q : Inode → FsState → Prop} : Alone p pan (inode ip) Q s ↔ Q (s.icache ip) s :=
  alone_of_step (.inode ip) (b := s.icache ip) ⟨rfl, rfl⟩ fun _ _ h => h

theorem alone_setInode {d : Dinode} :
    Alone p pan (setInode ip d) Q s ↔ Q () (s.setIno ip { s.icache ip with d := d }) :=
  alone_of_step (.setInode ip d) (b := ()) rfl fun _ _ h => ⟨rfl, h⟩

theorem alone_setValid :
    Alone p pan (setValid ip) Q s ↔ Q () (s.setIno ip { s.icache ip with valid := true }) :=
  alone_of_step (.setValid ip) (b := ()) rfl fun _ _ h => ⟨rfl, h⟩

theorem alone_ilockBusy (href : 1 ≤ (s.icache ip).ref) (hbusy : (s.icache ip).busy = none) :
    Alone p pan (ilockBusy ip) Q s ↔ Q () (s.setIno ip { s.icache ip with busy := some p }) :=
  alone_of_step (.ilockBusy ip) (b := ()) ⟨href, hbusy, rfl⟩ fun _ _ h => ⟨rfl, h.2.2⟩

theorem alone_iunlock (href : 1 ≤ (s.icache ip).ref) (hbusy : (s.icache ip).busy ≠ none) :
    Alone p pan (iunlock ip) Q s ↔ Q () (s.setIno ip { s.icache ip with busy := none }) :=
  alone_of_step (.iunlock ip) (b := ()) ⟨href, hbusy, rfl⟩ fun _ _ h => ⟨rfl, h.2.2⟩

/-- `iput` of an inode that is not to be freed. -/
theorem alone_iput (hlast : s.lastRef ip = false) :
    Alone p pan (iput ip) Q s ↔
      Q () (s.setIno ip { s.icache ip with ref := (s.icache ip).ref - 1 }) := by
  have htest : s.iputTest p ip =
      some (false, s.setIno ip { s.icache ip with ref := (s.icache ip).ref - 1 }) := by
    rw [FsState.iputTest, hlast]
    rfl
  unfold iput
  rw [alone_bind]
  exact alone_of_step (.iputTest ip) (b := false) htest fun b' t' h' => by
    cases htest.symm.trans h'
    exact ⟨rfl, rfl⟩

/-! ## Buffers taken and given back -/

namespace FsState

theorem buf_setBuf (n : Nat) (o : Option Pid) : (s.setBuf n o).buf n = o :=
  Function.update_self ..

/-- A buffer that was free is free again. -/
theorem setBuf_setBuf {n : Nat} (hn : s.buf n = none) (o : Option Pid) :
    (s.setBuf n o).setBuf n none = s := by
  have hbuf : Function.update (Function.update s.buf n o) n none = s.buf := by
    rw [Function.update_idem, ← hn, Function.update_eq_self]
  show { s with buf := Function.update (Function.update s.buf n o) n none } = s
  rw [hbuf]

theorem setBuf_write_setBuf {n : Nat} (hn : s.buf n = none) (o : Option Pid) (data : Block) :
    ((s.setBuf n o).write n data).setBuf n none = s.write n data := by
  show ((s.setBuf n o).setBuf n none).write n data = s.write n data
  rw [setBuf_setBuf hn]

end FsState

end Xv6

import Xv6.Mem.Leaks
import Xv6.Vm.Plan

/-! # A failed `exec`

Whether an `exec` returns and undoes what it has done when it fails is decided by the content of the
file and the number of free pages. It panics when the segments are not aligned or wrap around, and
when there is no room or no memory for the stack page, since the inode has been released then. It
loses a page when the memory runs out just when a page table is needed. -/

namespace Xv6.Mem

open Lib Run Vm

/-- **`exec` has undone everything**: the free pages, the process and the inode are as before. -/
structure Undone (x y : ExecState) : Prop where
  free : ∀ p, (∃ fl, FreeChain y.phys.mem y.phys.freelist fl ∧ p ∈ fl) ↔
    ∃ fl, FreeChain x.phys.mem x.phys.freelist fl ∧ p ∈ fl
  ref : y.ref = x.ref
  busy : y.busy = x.busy
  pgdir : y.pgdir = x.pgdir
  sz : y.sz = x.sz
  name : y.name = x.name
  spc : y.spc = x.spc
  sgr : y.sgr = x.sgr

/-- **`exec` is total and atomic**: it returns, and if it fails it has undone everything. -/
def Atomic (file : Option (List UInt8)) (path : List UInt8) (argv : List (List UInt8))
    (x : ExecState) : Prop :=
  ∃ fuel r y, execImage file fuel path argv x = .ok (r, y) ∧ (r = -1 → Undone x y)

/-- `x` is what the process `p` brings to `exec`, with an inode that is not locked. -/
structure Calls (s : Sys) (p : Pid) (x : ExecState) : Prop where
  phys : x.phys = s.phys
  pgdir : x.pgdir = (s.proc p).pgdir
  busy : x.busy = false

section

variable {e : KernelEnd} {s : Sys} {own own' : Nat → Owner} {fl fl' : List Nat} {x : ExecState}
  {u : Phys}

/-- The free pages, in terms of owners. -/
theorem undone_iff (h : Owned x.phys own fl) (hu : Owned u own' fl') :
    Undone x { x with phys := u } ↔ ∀ p, own' p = .free ↔ own p = .free := by
  have hfree : ∀ (w : Phys) o l p, Owned w o l →
      ((∃ l', FreeChain w.mem w.freelist l' ∧ p ∈ l') ↔ o p = .free) := by
    intro w o l p hw
    constructor
    · rintro ⟨l', hchain, hp⟩
      obtain rfl := hw.chain.unique hchain
      exact (hw.free p).mp hp
    · exact fun hp => ⟨l, hw.chain, (hw.free p).mpr hp⟩
  constructor
  · intro hun p
    exact (hfree u own' fl' p hu).symm.trans ((hun.free p).trans (hfree _ own fl p h))
  · intro hall
    refine ⟨fun p => ?_, rfl, rfl, rfl, rfl, rfl, rfl, rfl⟩
    exact (hfree u own' fl' p hu).trans ((hall p).trans (hfree _ own fl p h).symm)

end

/-- An executable with one segment of two bytes at address 1. -/
def unalignedElf : List UInt8 :=
  [0x7f, 0x45, 0x4c, 0x46] ++ List.replicate 24 0 ++ [52, 0, 0, 0] ++ List.replicate 12 0 ++ [1, 0] ++
    List.replicate 6 0 ++ [1, 0, 0, 0] ++ [0, 0, 0, 0] ++ [1, 0, 0, 0] ++ [0, 0, 0, 0] ++
    [2, 0, 0, 0] ++ [2, 0, 0, 0] ++ List.replicate 8 0

/-- The panic message. -/
def panicOf {α : Type} : Except Stop α → String
  | .error (.panic msg) => msg
  | _ => ""

theorem eq_error_of_panicOf {α : Type} {r : Except Stop α} {msg : String} (h : panicOf r = msg)
    (hmsg : msg ≠ "") : r = .error (.panic msg) := by
  match r with
  | .error (.panic _) => rw [← h, panicOf]
  | .error .loop => exact absurd h.symm hmsg
  | .ok _ => exact absurd h.symm hmsg

end Xv6.Mem

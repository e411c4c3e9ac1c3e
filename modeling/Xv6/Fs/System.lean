import Xv6.Fs.State
import Xv6.Lib.Conc

/-! # Processes that run system calls

The file system as a system of processes: a process that exists makes one system call after the
other, the calls of all processes are interleaved action by action, and every call runs to its end.
A call that panics or waits for a lock has no step. -/

namespace Xv6

open Lib Fs

/-- The process can make system calls. -/
def FsState.awake (s : FsState) (p : Pid) : Prop :=
  s.state p ≠ .UNUSED ∧ s.state p ≠ .EMBRYO ∧ s.state p ≠ .ZOMBIE

/-- A condition on the steps of a process: on the action, the state before it and its answer. -/
abbrev StepCond : Type := Pid → (a : KAct) → FsState → a.Resp → Prop

/-- `exec` gets its stack page: `allocuvm` fails only as long as the inode of the program is
locked. -/
def stackPage : StepCond
  | p, .allocuvm _ _ _, s, sz => sz = (0 : Nat) → ∃ ip, (s.icache ip).busy = some p
  | _, _, _, _ => True

/-- **The rules of the system**: which calls are made, and which steps are taken into account. -/
def fsRules (calls : Set Syscall) (cond : StepCond) : Rules Pid KAct FsState KAct.Resp where
  start s p x := s.awake p ∧ ∃ c ∈ calls, x = c.prog
  step p a s b t := a.step p s b t ∧ cond p a s b
  halt p a s t := a = .exitZombie ∧ t = s.setState p .ZOMBIE

/-- The state of the processes. -/
abbrev FsThreads : Type := Threads Pid KAct FsState KAct.Resp

/-- The first slot of the inode cache. -/
def firstSlot : Slot := ⟨0, zero_lt_NINODE⟩

/-- **After `userinit`**: only the first process exists; it has no open files, and its current
directory, the root, is in the first slot of the inode cache. -/
def FsState.boot (disk : Disk) : FsState where
  disk := disk
  buf _ := none
  icache ip :=
    if ip = firstSlot then ⟨ROOTINO, 1, none, false, Dinode.blank 0⟩
    else ⟨0, 0, none, false, Dinode.blank 0⟩
  ftable _ := ⟨.none, 0, false, false, 0, firstSlot, 0⟩
  ofile _ _ := none
  cwd p := if p = initproc then some firstSlot else none
  state p := if p = initproc then .RUNNABLE else .UNUSED
  np _ := none

/-- The system after `userinit`. -/
def FsThreads.boot (disk : Disk) : FsThreads := ⟨FsState.boot disk, fun _ => none⟩

end Xv6

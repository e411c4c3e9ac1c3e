import Xv6.Kernel.System
import Xv6.Fs.Map
import Mathlib.Logic.Function.Basic

/-! # The state of the file system

What the actions of the file layers and of `fork` and `exit` do to the disk, to the flags of the
buffers, to the inode cache, to the file table and to the descriptors of the processes. The disk is
as the buffer cache shows it. An action that panics, or that has to wait, has no step; pipes, the
console and the memory of the processes are left out, and their actions may be answered by
anything. -/

namespace Xv6

open Lib Fs

/-- **The state of the file system.** -/
structure FsState where
  /-- The contents of the blocks. -/
  disk : Disk
  /-- `B_BUSY` of the buffers, by sector, with the process that set it. -/
  buf : Nat → Option Pid
  icache : Slot → Inode
  ftable : Fid → File
  /-- `p->ofile`. -/
  ofile : Pid → Fd → Option Fid
  /-- `p->cwd`. -/
  cwd : Pid → Option Slot
  /-- `p->state`. -/
  state : Pid → ProcState
  /-- The local variable `np` of `fork`. -/
  np : Pid → Option Pid

namespace FsState

/-- Assign to a cached inode. -/
def setIno (s : FsState) (ip : Slot) (x : Inode) : FsState :=
  { s with icache := Function.update s.icache ip x }

/-- Assign to an entry of the file table. -/
def setFile (s : FsState) (f : Fid) (x : File) : FsState :=
  { s with ftable := Function.update s.ftable f x }

/-- Assign to the flag of a buffer. -/
def setBuf (s : FsState) (n : Nat) (o : Option Pid) : FsState :=
  { s with buf := Function.update s.buf n o }

/-- Write a block. -/
def write (s : FsState) (n : Nat) (data : Block) : FsState :=
  { s with disk := Function.update s.disk n data }

/-- Assign to a descriptor of a process. -/
def setFd (s : FsState) (p : Pid) (fd : Fd) (f : Option Fid) : FsState :=
  { s with ofile := Function.update s.ofile p (Function.update (s.ofile p) fd f) }

/-- Assign to the current directory of a process. -/
def setDir (s : FsState) (p : Pid) (ip : Option Slot) : FsState :=
  { s with cwd := Function.update s.cwd p ip }

/-- Assign to the state of a process. -/
def setState (s : FsState) (p : Pid) (st : ProcState) : FsState :=
  { s with state := Function.update s.state p st }

/-- The slot of the inode `inum` in the cache. -/
def cached (s : FsState) (inum : Nat) : Option Slot :=
  (List.finRange NINODE).find? fun ip => decide ((s.icache ip).ref > 0 ∧ (s.icache ip).inum = inum)

/-- The first empty slot of the cache. -/
def empty (s : FsState) : Option Slot :=
  (List.finRange NINODE).find? fun ip => decide ((s.icache ip).ref = 0)

/-- `iget`: the slot, and the state with one more reference to it; it panics if the inode is not
cached and there is no empty slot. -/
def iget (s : FsState) (inum : Nat) : Option (Slot × FsState) :=
  match s.cached inum with
  | some ip => some (ip, s.setIno ip { s.icache ip with ref := (s.icache ip).ref + 1 })
  | none => s.empty.map fun ip =>
      (ip, s.setIno ip { s.icache ip with inum := inum, ref := 1, busy := none, valid := false })

/-- `iput` frees the inode: the last reference, to an inode without links. -/
def lastRef (s : FsState) (ip : Slot) : Bool :=
  decide ((s.icache ip).ref = 1) && (s.icache ip).valid && decide ((s.icache ip).d.nlink = 0)

/-- The first section of `iput`. -/
def iputTest (s : FsState) (p : Pid) (ip : Slot) : Option (Bool × FsState) :=
  if s.lastRef ip then
    if (s.icache ip).busy.isSome then none
    else some (true, s.setIno ip { s.icache ip with busy := some p })
  else some (false, s.setIno ip { s.icache ip with ref := (s.icache ip).ref - 1 })

/-- `filealloc`. -/
def filealloc (s : FsState) : Option Fid × FsState :=
  match (List.finRange NFILE).find? fun f => decide ((s.ftable f).ref = 0) with
  | some f => (some f, s.setFile f { s.ftable f with ref := 1 })
  | none => (none, s)

/-- The section of `fileclose`. -/
def filecloseRef (s : FsState) (f : Fid) : Option (Option File × FsState) :=
  if (s.ftable f).ref < 1 then none
  else if (s.ftable f).ref - 1 > 0 then
    some (none, s.setFile f { s.ftable f with ref := (s.ftable f).ref - 1 })
  else some (some { s.ftable f with ref := 0 }, s.setFile f { s.ftable f with ref := 0, type := .none })

end FsState

/-- **What an action of the file layers by process `p` does.** -/
def Act.step (p : Pid) : (a : Act) → FsState → a.Resp → FsState → Prop
  | .bread n, s, b, t => s.buf n = none ∧ b = s.disk n ∧ t = s.setBuf n (some p)
  | .bwrite n data, s, _, t => s.buf n ≠ none ∧ t = s.write n data
  | .brelse n, s, _, t => s.buf n ≠ none ∧ t = s.setBuf n none
  | .iget inum, s, b, t => s.iget inum = some (b, t)
  | .idup ip, s, _, t => t = s.setIno ip { s.icache ip with ref := (s.icache ip).ref + 1 }
  | .ilockBusy ip, s, _, t =>
      1 ≤ (s.icache ip).ref ∧ (s.icache ip).busy = none ∧
        t = s.setIno ip { s.icache ip with busy := some p }
  | .inode ip, s, b, t => b = s.icache ip ∧ t = s
  | .setInode ip d, s, _, t => t = s.setIno ip { s.icache ip with d := d }
  | .setValid ip, s, _, t => t = s.setIno ip { s.icache ip with valid := true }
  | .iunlock ip, s, _, t =>
      1 ≤ (s.icache ip).ref ∧ (s.icache ip).busy ≠ none ∧
        t = s.setIno ip { s.icache ip with busy := none }
  | .iputTest ip, s, b, t => s.iputTest p ip = some (b, t)
  | .iputFreed ip, s, _, t =>
      t = s.setIno ip
        { s.icache ip with busy := none, valid := false, ref := (s.icache ip).ref - 1 }
  | .filealloc, s, b, t => (b, t) = s.filealloc
  | .filedup f, s, _, t =>
      1 ≤ (s.ftable f).ref ∧ t = s.setFile f { s.ftable f with ref := (s.ftable f).ref + 1 }
  | .filecloseRef f, s, b, t => s.filecloseRef f = some (b, t)
  | .file f, s, b, t => b = s.ftable f ∧ t = s
  | .setOff f off, s, _, t => t = s.setFile f { s.ftable f with off := off }
  | .setInodeFile f ip readable writable, s, _, t =>
      t = s.setFile f { s.ftable f with
        type := .inode, ip := ip, off := 0, readable := readable, writable := writable }
  | .setPipeFile f pp readable writable, s, _, t =>
      t = s.setFile f { s.ftable f with
        type := .pipe, pipe := pp, readable := readable, writable := writable }
  | .ofile fd, s, b, t => b = s.ofile p fd ∧ t = s
  | .setOfile fd f, s, _, t => t = s.setFd p fd f
  | .cwd, s, b, t => s.cwd p = some b ∧ t = s
  | .setCwd ip, s, _, t => t = s.setDir p ip
  | _, s, _, t => t = s

/-- **What an action of the kernel by process `p` does** to the state of the file system. -/
def KAct.step (p : Pid) : (a : KAct) → FsState → a.Resp → FsState → Prop
  | .fs a, s, b, t => a.step p s b t
  | .isInit, s, b, t => b = decide (p = initproc) ∧ t = s
  | .findUnused, s, true, t =>
      ∃ q, s.state q = .UNUSED ∧
        t = { s.setState q .EMBRYO with np := Function.update s.np p (some q) }
  | .findUnused, s, false, t => (∀ q, s.state q ≠ .UNUSED) ∧ t = s
  | .dropChild, s, _, t =>
      ∃ q, s.np p = some q ∧ t = { s.setState q .UNUSED with np := Function.update s.np p none }
  | .childOfile fd f, s, _, t => ∃ q, s.np p = some q ∧ t = s.setFd q fd (some f)
  | .childCwd ip, s, _, t => ∃ q, s.np p = some q ∧ t = s.setDir q (some ip)
  | .startChild, s, _, t =>
      ∃ q, s.np p = some q ∧ t = { s.setState q .RUNNABLE with np := Function.update s.np p none }
  | .wait, s, _, t => t = s ∨ ∃ q, s.state q = .ZOMBIE ∧ t = s.setState q .UNUSED
  | _, s, _, t => t = s

end Xv6

import Xv6.Fs.Layout
import Xv6.Lib.Prog

/-! # The atomic actions of the file layers

`fs.c`, `file.c`, `pipe.c`, `console.c` and `sysfile.c` are modelled as programs over the actions
below. An action is a section executed under one of the kernel's spin locks (with `bcache.lock`:
`bread`, `brelse`; with `icache.lock`: `iget`, `idup`, `iunlock` and the sections of `ilock` and
`iput`; with `ftable.lock`: the sections of `file.c`), an access to a structure that the caller has
locked, or an access to the memory of the calling process. There is one disk, and `ROOTDEV` is the
only device number that ever reaches `iget`; device numbers are left out. -/

namespace Xv6

open Lib Fs

/-- An entry of the process table. -/
abbrev Pid : Type := Fin NPROC

/-- An entry of the inode cache. -/
abbrev Slot : Type := Fin NINODE

/-- An entry of the file table. -/
abbrev Fid : Type := Fin NFILE

/-- A file descriptor. -/
abbrev Fd : Type := Fin NOFILE

/-- `struct inode`. The flag `I_BUSY` is kept together with the process that set it. -/
structure Inode where
  /-- Inode number. -/
  inum : Nat
  /-- Reference count. -/
  ref : Int
  /-- The process that set `I_BUSY`, if it is set. -/
  busy : Option Pid
  /-- `I_VALID`. -/
  valid : Bool
  /-- The copy of the disk inode. -/
  d : Dinode

/-- The kinds of open files. -/
inductive FdType
  | none
  | pipe
  | inode
  deriving DecidableEq

/-- `struct file`. -/
structure File where
  type : FdType
  /-- Reference count. -/
  ref : Int
  readable : Bool
  writable : Bool
  /-- The page of the pipe. -/
  pipe : Nat
  ip : Slot
  off : Nat

/-- `PIPESIZE`. -/
def PIPESIZE : Nat := 512

/-- The spin locks that the file layers hold over more than one action. -/
inductive Lock
  | pipe (p : Nat)
  | input
  | cons
  deriving DecidableEq

/-- **The atomic actions.** -/
inductive Act
  /-- `bread(dev, sector)`. -/
  | bread (sector : Nat)
  /-- `bwrite` of the buffer of a sector with given contents. -/
  | bwrite (sector : Nat) (data : Block)
  /-- `brelse` of the buffer of a sector. -/
  | brelse (sector : Nat)
  /-- `iget(dev, inum)`. -/
  | iget (inum : Nat)
  /-- `idup(ip)`. -/
  | idup (ip : Slot)
  /-- The section of `ilock` that waits for `I_BUSY` to be clear and sets it. -/
  | ilockBusy (ip : Slot)
  /-- A look at `*ip`. -/
  | inode (ip : Slot)
  /-- Assignments to the copied fields of `*ip`. -/
  | setInode (ip : Slot) (d : Dinode)
  /-- `ip->flags |= I_VALID`. -/
  | setValid (ip : Slot)
  /-- `iunlock(ip)`. -/
  | iunlock (ip : Slot)
  /-- The section of `iput` that either drops the reference or, for the last reference to an inode
  without links, sets `I_BUSY`; the answer says whether it did the latter. -/
  | iputTest (ip : Slot)
  /-- The last section of `iput` on an inode that it has freed. -/
  | iputFreed (ip : Slot)
  /-- `filealloc()`. -/
  | filealloc
  /-- `filedup(f)`. -/
  | filedup (f : Fid)
  /-- The section of `fileclose`; the answer is the copy `ff` if the last reference went away. -/
  | filecloseRef (f : Fid)
  /-- A look at `*f`. -/
  | file (f : Fid)
  /-- `f->off = off`. -/
  | setOff (f : Fid) (off : Nat)
  /-- The assignments at the end of `sys_open`. -/
  | setInodeFile (f : Fid) (ip : Slot) (readable writable : Bool)
  /-- The assignments of `pipealloc` to one of its files. -/
  | setPipeFile (f : Fid) (p : Nat) (readable writable : Bool)
  /-- `proc->ofile[fd]`. -/
  | ofile (fd : Fd)
  /-- `proc->ofile[fd] = f`. -/
  | setOfile (fd : Fd) (f : Option Fid)
  /-- `proc->cwd`. -/
  | cwd
  /-- `proc->cwd = ip`. -/
  | setCwd (ip : Option Slot)
  /-- `proc->sz`. -/
  | procSz
  /-- The kernel reads `n` bytes of user memory from an address on. -/
  | uread (addr n : Nat)
  /-- The kernel writes to user memory. -/
  | uwrite (addr : Nat) (bytes : List UInt8)
  /-- `acquire(lk)`. -/
  | acquire (lk : Lock)
  /-- `release(lk)`. -/
  | release (lk : Lock)
  /-- `kalloc()`. -/
  | kalloc
  /-- `kfree(v)`. -/
  | kfree (v : Nat)
  /-- The initialisation of a pipe by `pipealloc`. -/
  | pipeInit (p : Nat)
  /-- The loop of `piperead` that sleeps while the pipe is empty and its write end open; the answer
  is `false` if it ends because the process is killed. -/
  | pipeWaitData (p : Nat)
  /-- `p->data[p->nread++ % PIPESIZE]`, or `none` if the pipe is empty. -/
  | pipeGet (p : Nat)
  /-- The loop of `pipewrite` that sleeps while the pipe is full; the answer is `false` if it ends
  because nobody can read or the process is killed. -/
  | pipeWaitRoom (p : Nat)
  /-- `p->data[p->nwrite++ % PIPESIZE] = c`. -/
  | pipePut (p : Nat) (c : UInt8)
  /-- The section of `pipeclose`; the answer says whether both ends are closed now. -/
  | pipeCloseEnd (p : Nat) (writable : Bool)
  /-- The loop of `consoleread` that sleeps while no input is there; the answer is `false` if it
  ends because the process is killed. -/
  | inputWait
  /-- `input.buf[input.r++ % INPUT_BUF]`. -/
  | inputGet
  /-- `input.r--`. -/
  | inputUnget
  /-- `consputc(c)`. -/
  | consputc (c : UInt8)

/-- The type of an action's answer. -/
def Act.Resp : Act → Type
  | .bread _ => Block
  | .iget _ => Slot
  | .inode _ => Inode
  | .iputTest _ => Bool
  | .filealloc => Option Fid
  | .filecloseRef _ => Option File
  | .file _ => File
  | .ofile _ => Option Fid
  | .cwd => Slot
  | .procSz => Nat
  | .uread _ n => Bytes n
  | .kalloc => Option Nat
  | .pipeWaitData _ => Bool
  | .pipeGet _ => Option UInt8
  | .pipeWaitRoom _ => Bool
  | .pipeCloseEnd _ _ => Bool
  | .inputWait => Bool
  | .inputGet => UInt8
  | _ => Unit

/-- A program of the file layers. -/
abbrev FsProg (α : Type) : Type := Prog Act Act.Resp α

/-- Perform one action. -/
def doAct (a : Act) : FsProg a.Resp := Prog.perform a

/-- The value of an `int` as a `uint`. -/
def toUint (n : Int) : Nat := (n % 4294967296).toNat

/-- The value of a `uint` as an `int`. -/
def toInt (n : Nat) : Int := (n : Int).bmod 4294967296

namespace Fs

/-! ## The actions as programs -/

/-- `bread(dev, sector)`: the contents of the sector, whose buffer the caller holds from now on. -/
def bread (sector : Nat) : FsProg Block := doAct (.bread sector)

/-- `bwrite(bp)` with the buffer's contents. -/
def bwrite (sector : Nat) (data : Block) : FsProg Unit := doAct (.bwrite sector data)

/-- `brelse(bp)`. -/
def brelse (sector : Nat) : FsProg Unit := doAct (.brelse sector)

/-- `iget(dev, inum)`. -/
def iget (inum : Nat) : FsProg Slot := doAct (.iget inum)

/-- `idup(ip)`. -/
def idup (ip : Slot) : FsProg Unit := doAct (.idup ip)

/-- The section of `ilock` under `icache.lock`. -/
def ilockBusy (ip : Slot) : FsProg Unit := doAct (.ilockBusy ip)

/-- The fields of `*ip`. -/
def inode (ip : Slot) : FsProg Inode := doAct (.inode ip)

/-- Assign to the fields of `*ip` that are copied from the disk. -/
def setInode (ip : Slot) (d : Dinode) : FsProg Unit := doAct (.setInode ip d)

/-- `ip->flags |= I_VALID`. -/
def setValid (ip : Slot) : FsProg Unit := doAct (.setValid ip)

/-- `iunlock(ip)`. -/
def iunlock (ip : Slot) : FsProg Unit := doAct (.iunlock ip)

/-- The first section of `iput`. -/
def iputTest (ip : Slot) : FsProg Bool := doAct (.iputTest ip)

/-- The last section of `iput` on an inode that it has freed. -/
def iputFreed (ip : Slot) : FsProg Unit := doAct (.iputFreed ip)

/-- `filealloc()`. -/
def filealloc : FsProg (Option Fid) := doAct .filealloc

/-- `filedup(f)`. -/
def filedup (f : Fid) : FsProg Unit := doAct (.filedup f)

/-- The section of `fileclose` under `ftable.lock`. -/
def filecloseRef (f : Fid) : FsProg (Option File) := doAct (.filecloseRef f)

/-- The fields of `*f`. -/
def file (f : Fid) : FsProg File := doAct (.file f)

/-- `f->off = off`. -/
def setOff (f : Fid) (off : Nat) : FsProg Unit := doAct (.setOff f off)

/-- The assignments at the end of `sys_open`. -/
def setInodeFile (f : Fid) (ip : Slot) (readable writable : Bool) : FsProg Unit :=
  doAct (.setInodeFile f ip readable writable)

/-- The assignments of `pipealloc` to one of its files. -/
def setPipeFile (f : Fid) (p : Nat) (readable writable : Bool) : FsProg Unit :=
  doAct (.setPipeFile f p readable writable)

/-- `proc->ofile[fd]`. -/
def ofile (fd : Fd) : FsProg (Option Fid) := doAct (.ofile fd)

/-- `proc->ofile[fd] = f`. -/
def setOfile (fd : Fd) (f : Option Fid) : FsProg Unit := doAct (.setOfile fd f)

/-- `proc->cwd`. -/
def cwd : FsProg Slot := doAct .cwd

/-- `proc->cwd = ip`. -/
def setCwd (ip : Option Slot) : FsProg Unit := doAct (.setCwd ip)

/-- `proc->sz`. -/
def procSz : FsProg Nat := doAct .procSz

/-- The `n` bytes of user memory from an address on. -/
def uread (addr n : Nat) : FsProg (Bytes n) := doAct (.uread addr n)

/-- Write to user memory. -/
def uwrite (addr : Nat) (bytes : List UInt8) : FsProg Unit := doAct (.uwrite addr bytes)

/-- `acquire(lk)`. -/
def acquire (lk : Lock) : FsProg Unit := doAct (.acquire lk)

/-- `release(lk)`. -/
def release (lk : Lock) : FsProg Unit := doAct (.release lk)

/-- `kalloc()`. -/
def kalloc : FsProg (Option Nat) := doAct .kalloc

/-- `kfree(v)`. -/
def kfree (v : Nat) : FsProg Unit := doAct (.kfree v)

/-- The initialisation of a pipe. -/
def pipeInit (p : Nat) : FsProg Unit := doAct (.pipeInit p)

/-- The loop of `piperead` that sleeps while the pipe is empty. -/
def pipeWaitData (p : Nat) : FsProg Bool := doAct (.pipeWaitData p)

/-- The next byte of a pipe. -/
def pipeGet (p : Nat) : FsProg (Option UInt8) := doAct (.pipeGet p)

/-- The loop of `pipewrite` that sleeps while the pipe is full. -/
def pipeWaitRoom (p : Nat) : FsProg Bool := doAct (.pipeWaitRoom p)

/-- Append a byte to a pipe. -/
def pipePut (p : Nat) (c : UInt8) : FsProg Unit := doAct (.pipePut p c)

/-- The section of `pipeclose` under the lock of the pipe. -/
def pipeCloseEnd (p : Nat) (writable : Bool) : FsProg Bool := doAct (.pipeCloseEnd p writable)

/-- The loop of `consoleread` that sleeps while there is no input. -/
def inputWait : FsProg Bool := doAct .inputWait

/-- The next input character. -/
def inputGet : FsProg UInt8 := doAct .inputGet

/-- `input.r--`. -/
def inputUnget : FsProg Unit := doAct .inputUnget

/-- `consputc(c)`. -/
def consputc (c : UInt8) : FsProg Unit := doAct (.consputc c)

end Fs

end Xv6

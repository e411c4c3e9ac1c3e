import Xv6.Lib.Bytes

/-! # Constants and enumerations shared by the kernel's parts

The numbers are those of `param.h`, `fs.h` and `stat.h`; the process states those of `proc.h`. -/

namespace Xv6

open Lib

/-- Maximum number of processes. -/
def NPROC : Nat := 64

/-- Open files per process. -/
def NOFILE : Nat := 16

/-- Open files per system. -/
def NFILE : Nat := 100

/-- Size of the disk block cache. -/
def NBUF : Nat := 10

/-- Maximum number of active i-nodes. -/
def NINODE : Nat := 50

theorem zero_lt_NPROC : 0 < NPROC := by decide

theorem one_lt_NPROC : 1 < NPROC := by decide

theorem zero_lt_NINODE : 0 < NINODE := by decide

/-- Maximum major device number. -/
def NDEV : Nat := 10

/-- Device number of the file system root disk. -/
def ROOTDEV : Nat := 1

/-- Root i-number. -/
def ROOTINO : Nat := 1

/-- Block size. -/
def BSIZE : Nat := 512

/-- A disk block. -/
abbrev Block : Type := Bytes BSIZE

/-- Largest size of a process. -/
def USERTOP : Nat := 0x80000000

/-- `enum procstate`. -/
inductive ProcState
  | UNUSED
  | EMBRYO
  | SLEEPING
  | RUNNABLE
  | RUNNING
  | ZOMBIE
  deriving DecidableEq, Repr

end Xv6

import Xv6.Fs.Act

/-! # The inode cache

Any number of processes call `iget`, `idup`, `ilock`, `iunlock` and `iput`. A step is a section
executed under `icache.lock`, or a statement outside of it; between two of its steps a process may be
preempted, so the steps of all processes interleave freely.

References are kept at *places*: entries of the file table, working directories, local variables. A
place holds one reference, and any number of processes may use it at the same time (two processes
with one open file lock its inode through the same reference). The discipline of the file system is
that a process locks an inode only through a place that holds a reference to it, unlocks only what
it has locked, and passes a reference to `iput` only when nobody uses its place, which is empty from
then on. -/

namespace Xv6.Icache

open Lib

/-! ## States -/

/-- `struct inode`, as far as locking looks at it: `I_BUSY` and `I_VALID` are the two flags. -/
structure Inode where
  dev : Nat
  inum : Nat
  ref : Nat
  busy : Bool
  valid : Bool
  deriving DecidableEq

/-- What a process can sleep on. -/
inductive Chan
  /-- An entry of the inode cache. -/
  | inode (ip : Slot)
  /-- Any other address. -/
  | other (a : Nat)
  deriving DecidableEq

/-- Where a process is with respect to the inode cache; `h` is the place it uses. In `iput` the
process has the reference itself. -/
inductive Pc (m : Nat)
  /-- In none of the functions. -/
  | idle
  /-- In the loop of `ilock`. -/
  | ilock (h : Fin m)
  /-- `ilock` has set `I_BUSY` and is going to test `I_VALID`. -/
  | test (h : Fin m)
  /-- `ilock` reads the inode from the disk. -/
  | read (h : Fin m)
  /-- `ilock` has loaded the flags in order to set `I_VALID` in them. -/
  | store (h : Fin m) (busy valid : Bool)
  /-- `iunlock` has passed its test. -/
  | iunlock (h : Fin m)
  /-- `iput` has set `I_BUSY` and truncates the inode. -/
  | truncate (ip : Slot)

namespace Pc

variable {m : Nat}

/-- The place through which a process has locked an inode in the function that it is in. -/
def owned : Pc m → List (Fin m)
  | test h | read h | store h _ _ | iunlock h => [h]
  | _ => []

/-- The place that a process uses in the function that it is in. -/
def used : Pc m → List (Fin m)
  | ilock h | test h | read h | store h _ _ | iunlock h => [h]
  | _ => []

/-- How many references to the inode the process holds in `iput`. -/
def truncating : Pc m → Slot → Nat
  | truncate ip', ip => if ip' = ip then 1 else 0
  | _, _ => 0

end Pc

/-- A process: `locks` are the places through which `ilock` has returned and that it has not passed
to `iunlock` yet. -/
structure Proc (m : Nat) where
  state : ProcState
  chan : Option Chan
  killed : Bool
  pc : Pc m
  locks : List (Fin m)

namespace Proc

variable {m : Nat}

/-- The places through which a process has an inode locked. -/
def owned (x : Proc m) : List (Fin m) := x.pc.owned ++ x.locks

/-- The places that a process uses. -/
def used (x : Proc m) : List (Fin m) := x.pc.used ++ x.locks

end Proc

/-- The inode cache, the references and the processes, and the message of a panic. -/
structure Sys (n m : Nat) where
  inode : Slot → Inode
  place : Fin m → Option Slot
  proc : Fin n → Proc m
  panicked : Option String

section

variable {n m : Nat}

namespace Sys

/-- Replace an inode. -/
def setInode (s : Sys n m) (ip : Slot) (v : Inode) : Sys n m :=
  { s with inode := Function.update s.inode ip v }

/-- Replace what is at a place. -/
def setPlace (s : Sys n m) (h : Fin m) (o : Option Slot) : Sys n m :=
  { s with place := Function.update s.place h o }

/-- Replace a process. -/
def setProc (s : Sys n m) (p : Fin n) (x : Proc m) : Sys n m :=
  { s with proc := Function.update s.proc p x }

/-- `wakeup(chan)`. -/
def wakeup (s : Sys n m) (c : Chan) : Sys n m :=
  { s with proc := fun q =>
      if (s.proc q).state = .SLEEPING ∧ (s.proc q).chan = some c then
        { s.proc q with state := .RUNNABLE }
      else s.proc q }

theorem setProc_self (s : Sys n m) (p : Fin n) (x : Proc m) : (s.setProc p x).proc p = x := by
  simp only [setProc, Function.update_self]

theorem setProc_of_ne (s : Sys n m) {p q : Fin n} (x : Proc m) (h : q ≠ p) :
    (s.setProc p x).proc q = s.proc q := by
  simp only [setProc, Function.update_of_ne h]

theorem setInode_self (s : Sys n m) (ip : Slot) (v : Inode) : (s.setInode ip v).inode ip = v := by
  simp only [setInode, Function.update_self]

theorem setInode_of_ne (s : Sys n m) {ip j : Slot} (v : Inode) (h : j ≠ ip) :
    (s.setInode ip v).inode j = s.inode j := by
  simp only [setInode, Function.update_of_ne h]

theorem setPlace_of_ne (s : Sys n m) {h h' : Fin m} (o : Option Slot) (hne : h' ≠ h) :
    (s.setPlace h o).place h' = s.place h' := by
  simp only [setPlace, Function.update_of_ne hne]

end Sys

/-! ## Steps -/

/-- The loop of `iget`: an entry that caches the inode, or the first one that is not used. -/
def igetLoop (inode : Slot → Inode) (dev inum : Nat) :
    (empty : Option Slot) → List Slot → Option (Slot × Bool)
  | empty, [] => empty.map fun ip => (ip, false)
  | empty, ip :: ips =>
      if 0 < (inode ip).ref ∧ (inode ip).dev = dev ∧ (inode ip).inum = inum then some (ip, true)
      else
        igetLoop inode dev inum
          (if empty = none ∧ (inode ip).ref = 0 then some ip else empty) ips

/-- The section of `iget`: the entry and its new contents; `none` stands for its panic. -/
def iget (inode : Slot → Inode) (dev inum : Nat) : Option (Slot × Inode) :=
  (igetLoop inode dev inum none (List.finRange NINODE)).map fun r =>
    if r.2 then (r.1, { inode r.1 with ref := (inode r.1).ref + 1 })
    else (r.1, ⟨dev, inum, 1, false, false⟩)

/-- The events. -/
inductive Event (n m : Nat)
  | iget (p : Fin n) (h : Fin m) (dev inum : Nat)
  | idup (p : Fin n) (h h' : Fin m)
  /-- The call of `ilock`. -/
  | ilock (p : Fin n) (h : Fin m)
  /-- The loop of `ilock`, up to the assignment of the flag or to `sleep`. -/
  | take (p : Fin n)
  /-- The test of `I_VALID`. -/
  | test (p : Fin n)
  /-- The flags are loaded. -/
  | load (p : Fin n)
  /-- The flags are stored; `ok` says whether the inode has a type. -/
  | store (p : Fin n) (ok : Bool)
  /-- The call of `iunlock`. -/
  | iunlock (p : Fin n) (h : Fin m)
  /-- The section of `iunlock`. -/
  | clear (p : Fin n)
  /-- The call of `iput`; `unlinked` says whether `nlink` is zero. -/
  | iput (p : Fin n) (h : Fin m) (unlinked : Bool)
  /-- The second section of `iput`. -/
  | truncated (p : Fin n)
  /-- The process goes to sleep on something else. -/
  | sleep (p : Fin n) (a : Nat)
  /-- Those who sleep on something else are woken up. -/
  | wakeup (a : Nat)
  | kill (p : Fin n)

/-- The process can run: what `sleep` does when it comes back is done. -/
def Proc.resume (x : Proc m) : Proc m := { x with chan := none }

/-- **The steps of the processes.** A panic stops the machine. -/
inductive Step : Sys n m → Event n m → Sys n m → Prop
  | iget {s : Sys n m} {p : Fin n} {h : Fin m} {dev inum : Nat} {ip : Slot} {v : Inode}
      (hgo : s.panicked = none) (hrun : (s.proc p).state = .RUNNABLE) (hpc : (s.proc p).pc = .idle)
      (hplace : s.place h = none) (hget : Icache.iget s.inode dev inum = some (ip, v)) :
      Step s (.iget p h dev inum) ((s.setInode ip v).setPlace h (some ip))
  | igetPanic {s : Sys n m} {p : Fin n} {h : Fin m} {dev inum : Nat} (hgo : s.panicked = none)
      (hrun : (s.proc p).state = .RUNNABLE) (hpc : (s.proc p).pc = .idle)
      (hget : Icache.iget s.inode dev inum = none) :
      Step s (.iget p h dev inum) { s with panicked := some "iget: no inodes" }
  | idup {s : Sys n m} {p : Fin n} {h h' : Fin m} {ip : Slot} (hgo : s.panicked = none)
      (hrun : (s.proc p).state = .RUNNABLE) (hpc : (s.proc p).pc = .idle)
      (hfrom : s.place h = some ip) (hto : s.place h' = none) :
      Step s (.idup p h h')
        ((s.setInode ip { s.inode ip with ref := (s.inode ip).ref + 1 }).setPlace h' (some ip))
  | ilock {s : Sys n m} {p : Fin n} {h : Fin m} {ip : Slot} (hgo : s.panicked = none)
      (hrun : (s.proc p).state = .RUNNABLE) (hpc : (s.proc p).pc = .idle)
      (hplace : s.place h = some ip) :
      Step s (.ilock p h)
        (if (s.inode ip).ref < 1 then { s with panicked := some "ilock" }
        else s.setProc p { s.proc p with pc := .ilock h })
  | take {s : Sys n m} {p : Fin n} {h : Fin m} {ip : Slot} (hgo : s.panicked = none)
      (hrun : (s.proc p).state = .RUNNABLE) (hpc : (s.proc p).pc = .ilock h)
      (hplace : s.place h = some ip) :
      Step s (.take p)
        (if (s.inode ip).busy then
          s.setProc p { s.proc p with state := .SLEEPING, chan := some (.inode ip) }
        else
          (s.setInode ip { s.inode ip with busy := true }).setProc p
            { (s.proc p).resume with pc := .test h })
  | test {s : Sys n m} {p : Fin n} {h : Fin m} {ip : Slot} (hgo : s.panicked = none)
      (hrun : (s.proc p).state = .RUNNABLE) (hpc : (s.proc p).pc = .test h)
      (hplace : s.place h = some ip) :
      Step s (.test p)
        (if (s.inode ip).valid then
          s.setProc p { s.proc p with pc := .idle, locks := h :: (s.proc p).locks }
        else s.setProc p { s.proc p with pc := .read h })
  | load {s : Sys n m} {p : Fin n} {h : Fin m} {ip : Slot} (hgo : s.panicked = none)
      (hrun : (s.proc p).state = .RUNNABLE) (hpc : (s.proc p).pc = .read h)
      (hplace : s.place h = some ip) :
      Step s (.load p)
        (s.setProc p { s.proc p with pc := .store h (s.inode ip).busy (s.inode ip).valid })
  | store {s : Sys n m} {p : Fin n} {h : Fin m} {ip : Slot} {busy valid ok : Bool}
      (hgo : s.panicked = none) (hrun : (s.proc p).state = .RUNNABLE) (hpc : (s.proc p).pc = .store h busy valid)
      (hplace : s.place h = some ip) :
      Step s (.store p ok)
        { (s.setInode ip { s.inode ip with busy := busy, valid := true }).setProc p
            { s.proc p with pc := .idle, locks := h :: (s.proc p).locks } with
          panicked := if ok then none else some "ilock: no type" }
  | iunlock {s : Sys n m} {p : Fin n} {h : Fin m} {ip : Slot} (hgo : s.panicked = none)
      (hrun : (s.proc p).state = .RUNNABLE) (hpc : (s.proc p).pc = .idle)
      (hlock : h ∈ (s.proc p).locks) (hplace : s.place h = some ip) :
      Step s (.iunlock p h)
        (if (s.inode ip).busy = false ∨ (s.inode ip).ref < 1 then
          { s with panicked := some "iunlock" }
        else
          s.setProc p { s.proc p with pc := .iunlock h, locks := (s.proc p).locks.erase h })
  | clear {s : Sys n m} {p : Fin n} {h : Fin m} {ip : Slot} (hgo : s.panicked = none)
      (hrun : (s.proc p).state = .RUNNABLE) (hpc : (s.proc p).pc = .iunlock h)
      (hplace : s.place h = some ip) :
      Step s (.clear p)
        (((s.setInode ip { s.inode ip with busy := false }).setProc p
          { s.proc p with pc := .idle }).wakeup (.inode ip))
  | iput {s : Sys n m} {p : Fin n} {h : Fin m} {ip : Slot} {unlinked : Bool}
      (hgo : s.panicked = none) (hrun : (s.proc p).state = .RUNNABLE) (hpc : (s.proc p).pc = .idle)
      (hplace : s.place h = some ip) (hunused : ∀ q, h ∉ (s.proc q).used) :
      Step s (.iput p h unlinked)
        (if (s.inode ip).ref = 1 ∧ (s.inode ip).valid = true ∧ unlinked = true then
          if (s.inode ip).busy then { s with panicked := some "iput busy" }
          else
            ((s.setInode ip { s.inode ip with busy := true }).setPlace h none).setProc p
              { s.proc p with pc := .truncate ip }
        else
          (s.setInode ip { s.inode ip with ref := (s.inode ip).ref - 1 }).setPlace h none)
  | truncated {s : Sys n m} {p : Fin n} {ip : Slot} (hgo : s.panicked = none)
      (hrun : (s.proc p).state = .RUNNABLE) (hpc : (s.proc p).pc = .truncate ip) :
      Step s (.truncated p)
        (((s.setInode ip
          { s.inode ip with ref := (s.inode ip).ref - 1, busy := false, valid := false }).setProc p
            { s.proc p with pc := .idle }).wakeup (.inode ip))
  | sleep {s : Sys n m} {p : Fin n} {a : Nat} (hgo : s.panicked = none)
      (hrun : (s.proc p).state = .RUNNABLE) :
      Step s (.sleep p a)
        (s.setProc p { s.proc p with state := .SLEEPING, chan := some (.other a) })
  | wakeup {s : Sys n m} {a : Nat} (hgo : s.panicked = none) :
      Step s (.wakeup a) (s.wakeup (.other a))
  | kill {s : Sys n m} {p : Fin n} (hgo : s.panicked = none) :
      Step s (.kill p)
        (s.setProc p { s.proc p with
          killed := true
          state := if (s.proc p).state = .SLEEPING then .RUNNABLE else (s.proc p).state })

/-- The system after `iinit`, with nobody in the inode cache. -/
def boot : Sys n m where
  inode := fun _ => ⟨0, 0, 0, false, false⟩
  place := fun _ => none
  proc := fun _ => ⟨.RUNNABLE, none, false, .idle, []⟩
  panicked := none

/-- The process has the inode locked: it is past the loop of an `ilock` that it has not undone, or
it truncates the inode in `iput`. -/
def Owns (s : Sys n m) (p : Fin n) (ip : Slot) : Prop :=
  (∃ h ∈ (s.proc p).owned, s.place h = some ip) ∨ (s.proc p).pc = .truncate ip

/-- The process sleeps on the channel of the inode. -/
def SleepsOn (s : Sys n m) (p : Fin n) (ip : Slot) : Prop :=
  (s.proc p).state = .SLEEPING ∧ (s.proc p).chan = some (.inode ip)

end

end Xv6.Icache

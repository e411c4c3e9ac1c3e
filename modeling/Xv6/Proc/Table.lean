import Xv6.Lib.Exec
import Xv6.Kernel.Param
import Mathlib.Data.List.FinRange

/-! # The process table

`fork`, `exit`, `wait`, `kill` and the scheduling of `proc.c` as a transition system on the process
table. A step is a section under `ptable.lock`, or one of the assignments that `fork` makes to its
child without the lock. Between the steps of a process the others go on, and a process may be led
into `exit` at any point by the timer interrupt.

Beside the table, processes are numbered in the order of their births, and the successful returns
of `fork` and `wait` are recorded. -/

namespace Xv6.Ptable

open Lib

/-- An entry of `ptable.proc`. -/
abbrev Entry : Type := Fin NPROC

/-- The entry of `initproc`. -/
def initproc : Entry := ⟨0, zero_lt_NPROC⟩

/-- What processes sleep on. -/
inductive Chan
  /-- The address of an entry, for `wait`. -/
  | proc (p : Entry)
  /-- Any other channel. -/
  | other (n : Nat)
  deriving DecidableEq

/-- Where a process is. -/
inductive Place
  /-- In none of the calls below. -/
  | user
  /-- In `fork`, after `allocproc` has found the entry. -/
  | fork (q : Entry)
  /-- In `fork`, after the assignment to the child's `parent`. -/
  | forkReady (q : Entry)
  /-- In `wait`, before a scan of the table. -/
  | wait
  deriving DecidableEq

/-- `struct proc`, as far as it matters here, with the number of the process. -/
structure Proc where
  state : ProcState
  pid : Int
  parent : Option Entry
  killed : Bool
  chan : Option Chan
  place : Place
  /-- The process is the `birth`-th one of the system. -/
  birth : Nat

/-- `wakeup1(chan)` for one process. -/
def Proc.woken (x : Proc) (c : Chan) : Proc :=
  if x.state = .SLEEPING ∧ x.chan = some c then { x with state := .RUNNABLE } else x

/-- The process that `kill` has found. -/
def Proc.kill (x : Proc) : Proc :=
  { x with killed := true, state := if x.state = .SLEEPING then .RUNNABLE else x.state }

/-- A successful return of `fork`. -/
structure ForkRecord where
  /-- The number of the child. -/
  child : Nat
  /-- The number of the process that called `fork`. -/
  creator : Nat
  /-- The value returned. -/
  value : Int

/-- A return of `wait` with the pid of a child. -/
structure WaitRecord where
  /-- The number of the child. -/
  child : Nat
  /-- The state and the parent that the child had. -/
  state : ProcState
  parent : Option Entry
  /-- The caller, and its number. -/
  caller : Entry
  callerBirth : Nat
  /-- The value returned. -/
  value : Int

/-- **The process table** with the records. -/
structure Table where
  proc : Entry → Proc
  nextpid : BitVec 32
  births : Nat
  forks : List ForkRecord
  waits : List WaitRecord

/-- What happens next. -/
inductive ProcEvent
  /-- The scheduler picks the process. -/
  | sched (p : Entry)
  /-- The process calls `yield`. -/
  | yield (p : Entry)
  /-- The process sleeps on a channel of another part of the kernel. -/
  | sleep (p : Entry) (n : Nat)
  /-- `wakeup` on such a channel. -/
  | wakeup (n : Nat)
  /-- `fork` and its `allocproc` find the first entry that is not used. -/
  | fork (p : Entry)
  /-- There is no memory for the child. -/
  | forkFail (p : Entry)
  /-- `np->parent = proc`. -/
  | forkParent (p : Entry)
  /-- `np->state = RUNNABLE`, and `fork` returns the pid. -/
  | forkDone (p : Entry)
  /-- The process calls `wait`. -/
  | wait (p : Entry)
  /-- One pass of the loop of `wait`. -/
  | scan (p : Entry)
  /-- The section of `exit`. -/
  | exit (p : Entry)
  /-- `kill(pid)`. -/
  | kill (pid : Int)

namespace Table

/-- Change one entry. -/
def set (s : Table) (p : Entry) (x : Proc) : Table := { s with proc := Function.update s.proc p x }

/-- The first entry in the state `UNUSED`. -/
def findUnused (s : Table) : Option Entry :=
  (List.finRange NPROC).find? fun q => (s.proc q).state = .UNUSED

/-- The first child of a process in the state `ZOMBIE`. -/
def zombieChild (s : Table) (p : Entry) : Option Entry :=
  (List.finRange NPROC).find? fun q => (s.proc q).parent = some p ∧ (s.proc q).state = .ZOMBIE

/-- `havekids`. -/
def haveKids (s : Table) (p : Entry) : Bool :=
  (List.finRange NPROC).any fun q => (s.proc q).parent = some p

/-- The first entry with the pid. -/
def findPid (s : Table) (pid : Int) : Option Entry :=
  (List.finRange NPROC).find? fun q => (s.proc q).pid = pid

/-- One entry in the section of `exit` by `p`: the parent is woken up, and children are passed to
`initproc`, which is woken up if one of them is a zombie. -/
def exitEntry (s : Table) (p q : Entry) : Proc :=
  let woken := match (s.proc p).parent with
    | some w => (s.proc q).woken (.proc w)
    | none => s.proc q
  let woken := if (s.zombieChild p).isSome then woken.woken (.proc initproc) else woken
  let passed := if (s.proc q).parent = some p then { woken with parent := some initproc } else woken
  if q = p then { passed with state := .ZOMBIE, place := .user } else passed

/-- The process in an entry that `allocproc` has found. -/
def embryo (s : Table) (q : Entry) : Proc :=
  { s.proc q with
    state := .EMBRYO, pid := s.nextpid.toInt, place := .user, birth := s.births + 1 }

/-- The entry of a child that `wait` has found. -/
def reaped (s : Table) (q : Entry) : Proc :=
  { s.proc q with state := .UNUSED, pid := 0, parent := none, killed := false }

/-- A process goes on at another place. -/
def moved (s : Table) (p : Entry) (pl : Place) : Proc := { s.proc p with place := pl }

/-- The record of a `wait` by `p` that finds the child `q`. -/
def waitRecord (s : Table) (p q : Entry) : WaitRecord :=
  ⟨(s.proc q).birth, (s.proc q).state, (s.proc q).parent, p, (s.proc p).birth, (s.proc q).pid⟩

/-- The record of a `fork` by `p` of the child `q`. -/
def forkRecord (s : Table) (p q : Entry) : ForkRecord :=
  ⟨(s.proc q).birth, (s.proc p).birth, (s.proc q).pid⟩

/-- One pass of the loop of `wait`: a child is found, or there is none to wait for, or the process
goes to sleep. -/
def scan (s : Table) (p : Entry) : Table :=
  match s.zombieChild p with
  | some q =>
      { (s.set q (s.reaped q)).set p (s.moved p .user) with
        waits := s.waits ++ [s.waitRecord p q] }
  | none =>
      if s.haveKids p = false ∨ (s.proc p).killed = true then s.set p (s.moved p .user)
      else s.set p { s.proc p with state := .SLEEPING, chan := some (.proc p) }

/-- `kill(pid)`. -/
def kill (s : Table) (pid : Int) : Table :=
  match s.findPid pid with
  | some q => s.set q (s.proc q).kill
  | none => s

/-- **The steps of the system.** `none` is for events that cannot happen, and for the panic of
`exit` in `initproc`. -/
def step (s : Table) : ProcEvent → Option Table
  | .sched p =>
      if (s.proc p).state = .RUNNABLE then
        some (s.set p { s.proc p with state := .RUNNING, chan := none })
      else none
  | .wakeup n => some { s with proc := fun q => (s.proc q).woken (.other n) }
  | .kill pid => some (s.kill pid)
  | .yield p =>
      if (s.proc p).state = .RUNNING then some (s.set p { s.proc p with state := .RUNNABLE })
      else none
  | .sleep p n =>
      if (s.proc p).state = .RUNNING then
        some (s.set p { s.proc p with state := .SLEEPING, chan := some (.other n) })
      else none
  | .fork p =>
      if (s.proc p).state = .RUNNING ∧ (s.proc p).place = .user then
        match s.findUnused with
        | some q =>
            some { (s.set q (s.embryo q)).set p (s.moved p (.fork q)) with
              nextpid := s.nextpid + 1#32, births := s.births + 1 }
        | none => some s
      else none
  | .forkFail p =>
      if (s.proc p).state = .RUNNING then
        match (s.proc p).place with
        | .fork q =>
            some ((s.set q { s.proc q with state := .UNUSED }).set p (s.moved p .user))
        | _ => none
      else none
  | .forkParent p =>
      if (s.proc p).state = .RUNNING then
        match (s.proc p).place with
        | .fork q =>
            some ((s.set q { s.proc q with parent := some p }).set p (s.moved p (.forkReady q)))
        | _ => none
      else none
  | .forkDone p =>
      if (s.proc p).state = .RUNNING then
        match (s.proc p).place with
        | .forkReady q =>
            some { (s.set q { s.proc q with state := .RUNNABLE }).set p (s.moved p .user) with
              forks := s.forks ++ [s.forkRecord p q] }
        | _ => none
      else none
  | .wait p =>
      if (s.proc p).state = .RUNNING ∧ (s.proc p).place = .user then
        some (s.set p (s.moved p .wait))
      else none
  | .scan p =>
      if (s.proc p).state = .RUNNING ∧ (s.proc p).place = .wait then some (s.scan p) else none
  | .exit p =>
      if (s.proc p).state = .RUNNING ∧ p ≠ initproc then some { s with proc := s.exitEntry p }
      else none

/-- The table after `userinit`. -/
def boot : Table where
  proc q :=
    if q = initproc then ⟨.RUNNABLE, 1, none, false, none, .user, 1⟩
    else ⟨.UNUSED, 0, none, false, none, .user, 0⟩
  nextpid := 2#32
  births := 1
  forks := []
  waits := []

end Table

end Xv6.Ptable

import Xv6.Fs.Sysfile
import Xv6.Kernel.Exec

/-! # All system calls and the timer interrupt

The system calls of `sysproc.c` and `sysfile.c` and the handler `do_timer` as programs over the
actions of the file layers and those of `proc.c`. Memory management appears only through the values
it returns. -/

namespace Xv6

open Lib Fs

/-- **The atomic actions of the whole kernel.** -/
inductive KAct
  /-- An action of the file layers. -/
  | fs (a : Act)
  /-- The section of `do_timer` under `tickslock`. -/
  | timerTicks
  /-- The test `proc && proc->killed` of `do_timer`. -/
  | timerKilled
  /-- The test `proc && proc->state == RUNNING` of `do_timer`. -/
  | procRunning
  /-- `yield()`. -/
  | yield
  /-- The test `proc == initproc` of `exit`. -/
  | isInit
  /-- The end of `exit` under `ptable.lock`: the process becomes a zombie and never returns. -/
  | exitZombie
  /-- The section of `allocproc` under `ptable.lock`: an unused entry becomes the embryo `np`; the
  answer says whether there is one. -/
  | findUnused
  /-- `p->kstack = kalloc()`; the answer says whether there is memory. -/
  | allocKstack
  /-- `np->pgdir = copyuvm(proc->pgdir, proc->sz)`; the answer says whether there is memory. -/
  | copyuvm
  /-- `kfree(np->kstack); np->kstack = 0`. -/
  | freeKstack
  /-- `np->state = UNUSED`. -/
  | dropChild
  /-- `np->ofile[fd] = f`. -/
  | childOfile (fd : Fd) (f : Fid)
  /-- `np->cwd = ip`. -/
  | childCwd (ip : Slot)
  /-- `np->state = RUNNABLE`; the answer is the child's pid. -/
  | startChild
  /-- `wait()`. -/
  | wait
  /-- `kill(pid)`. -/
  | kill (pid : Int)
  /-- `proc->pid`. -/
  | getpid
  /-- `growproc(n)`. -/
  | growproc (n : Int)
  /-- The body of `sys_sleep`. -/
  | sleepTicks (n : Int)
  /-- The body of `sys_uptime`. -/
  | uptime
  /-- `setupkvm()`. -/
  | setupkvm
  /-- `allocuvm(pgdir, oldsz, newsz)`. -/
  | allocuvm (pgdir oldsz newsz : Nat)
  /-- The entry at `walkpgdir(pgdir, va, 0)`. -/
  | pte (pgdir va : Nat)
  /-- A store to physical memory. -/
  | store (pa : Nat) (bytes : List UInt8)
  /-- `freevm(pgdir)`. -/
  | freevm (pgdir : Nat)
  /-- The assignments of `exec` to `*proc`. -/
  | commit (pgdir sz : Nat) (name : List UInt8) (entry sp argc argp : Nat)
  /-- `switchuvm(proc)`. -/
  | switchuvm

/-- The type of an action's answer. -/
def KAct.Resp : KAct → Type
  | .fs a => a.Resp
  | .timerKilled => Bool
  | .procRunning => Bool
  | .isInit => Bool
  | .exitZombie => Empty
  | .findUnused => Bool
  | .allocKstack => Bool
  | .copyuvm => Bool
  | .startChild => Int
  | .wait => Int
  | .kill _ => Int
  | .getpid => Int
  | .growproc _ => Int
  | .sleepTicks _ => Int
  | .uptime => Int
  | .setupkvm => Option Nat
  | .allocuvm _ _ _ => Nat
  | .pte _ _ => Option Nat
  | .commit _ _ _ _ _ _ _ => Nat
  | _ => Unit

/-- A program of the kernel. -/
abbrev KProg (α : Type) : Type := Prog KAct KAct.Resp α

/-- Perform one action. -/
def doKAct (a : KAct) : KProg a.Resp := Prog.perform a

/-- A program of the file layers as a program of the kernel. -/
def liftFs {α : Type} : FsProg α → KProg α
  | .ret x => .ret x
  | .act a k => .act (.fs a) fun b => liftFs (k b)
  | .panic msg => .panic msg

/-! ## `exit` and `fork` -/

/-- The loop of `exit` that closes all open files. -/
def closeFiles : List Fd → FsProg Unit
  | [] => pure ()
  | fd :: fds => do
      let f ← ofile fd
      (match f with
        | some f => do
            fileclose f
            setOfile fd none
        | none => pure ())
      closeFiles fds

/-- The part of `exit` in the file layers. -/
def exitFs : FsProg Unit := do
  closeFiles (List.finRange NOFILE)
  let ip ← cwd
  iput ip
  setCwd none

/-- The test `proc == initproc`. -/
def isInit : KProg Bool := doKAct .isInit

/-- The end of `exit`. -/
def exitZombie : KProg Empty := doKAct .exitZombie

/-- `exit()`. -/
def exit : KProg Unit := do
  let init ← isInit
  if init then Prog.panic "init exiting"
  else do
    liftFs exitFs
    let never ← exitZombie
    never.elim

/-- `np->ofile[fd] = f`. -/
def childOfile (fd : Fd) (f : Fid) : KProg Unit := doKAct (.childOfile fd f)

/-- The loop of `fork` that duplicates the open files. -/
def dupFiles : List Fd → KProg Unit
  | [] => pure ()
  | fd :: fds => do
      let f ← liftFs (ofile fd)
      (match f with
        | some f => do
            liftFs (filedup f)
            childOfile fd f
        | none => pure ())
      dupFiles fds

/-- The section of `allocproc` under `ptable.lock`. -/
def findUnused : KProg Bool := doKAct .findUnused

/-- `p->kstack = kalloc()`. -/
def allocKstack : KProg Bool := doKAct .allocKstack

/-- `np->pgdir = copyuvm(proc->pgdir, proc->sz)`. -/
def copyuvm : KProg Bool := doKAct .copyuvm

/-- `kfree(np->kstack); np->kstack = 0`. -/
def freeKstack : KProg Unit := doKAct .freeKstack

/-- `np->state = UNUSED`. -/
def dropChild : KProg Unit := doKAct .dropChild

/-- `np = allocproc()`; the result says whether it succeeds. -/
def allocproc : KProg Bool := do
  let found ← findUnused
  if found then do
    let ok ← allocKstack
    if ok then pure true
    else do
      dropChild
      pure false
  else pure false

/-- `np->cwd = ip`. -/
def childCwd (ip : Slot) : KProg Unit := doKAct (.childCwd ip)

/-- `np->state = RUNNABLE`. -/
def startChild : KProg Int := doKAct .startChild

/-- `fork()`. -/
def fork : KProg Int := do
  let found ← allocproc
  if found then do
    let copied ← copyuvm
    if copied then do
      dupFiles (List.finRange NOFILE)
      let ip ← liftFs cwd
      liftFs (idup ip)
      childCwd ip
      startChild
    else do
      freeKstack
      dropChild
      pure (-1)
  else pure (-1)

/-! ## `exec` -/

/-- The operations of `exec` as programs of the kernel. -/
def execOps : ExecOps KProg Slot where
  namei path := liftFs (namei path)
  ilock ip := liftFs (ilock ip)
  readi ip off n := liftFs (readi ip .kernel off n)
  iunlockput ip := liftFs (iunlockput ip)
  setupkvm := doKAct .setupkvm
  allocuvm pgdir oldsz newsz := doKAct (.allocuvm pgdir oldsz newsz)
  pte pgdir va := doKAct (.pte pgdir va)
  store pa bytes := doKAct (.store pa bytes)
  freevm pgdir := doKAct (.freevm pgdir)
  commit pgdir sz name entry sp argc argp := doKAct (.commit pgdir sz name entry sp argc argp)
  switchuvm := doKAct .switchuvm
  panic msg := .panic msg

/-! ## The timer interrupt -/

/-- The section of `do_timer` under `tickslock`. -/
def timerTicks : KProg Unit := doKAct .timerTicks

/-- The test for a killed process in `do_timer`. -/
def timerKilled : KProg Bool := doKAct .timerKilled

/-- The test for a running process in `do_timer`. -/
def procRunning : KProg Bool := doKAct .procRunning

/-- `yield()`. -/
def yield : KProg Unit := doKAct .yield

/-- `do_timer()`. -/
def doTimer : KProg Unit := do
  timerTicks
  let killed ← timerKilled
  (if killed then exit else pure ())
  -- force process to give up CPU on clock tick
  let running ← procRunning
  (if running then yield else pure ())
  -- check if the process has been killed since we yielded
  let killed ← timerKilled
  (if killed then exit else pure ())

/-! ## The system calls -/

/-- **The system calls** with the values of their arguments; strings as `argstr` delivers them, and
for `exec` the `argv` that `sys_exec` collects. -/
inductive Syscall
  | chdir (path : StrArg)
  | close (fd : Int)
  | dup (fd : Int)
  | exec (path : StrArg) (argv : Option (List (List UInt8)))
  | exit
  | fork
  | fstat (fd st : Int)
  | getpid
  | kill (pid : Int)
  | link (old new : StrArg)
  | mkdir (path : StrArg)
  | mknod (path : StrArg) (major minor : Int)
  | open (path : StrArg) (omode : Int)
  | pipe (fdp : Int)
  | read (fd p n : Int)
  | sbrk (n : Int)
  | sleep (n : Int)
  | unlink (path : StrArg)
  | wait
  | write (fd p n : Int)
  | uptime

/-- Perform an action and drop its answer. -/
def kact (a : KAct) : KProg Unit := do
  let _ ← doKAct a
  pure ()

/-- The program of a system call; its result goes to the user's `r0`. -/
def Syscall.prog : Syscall → KProg Unit
  | .chdir path => (fun _ => ()) <$> liftFs (sysChdir path)
  | .close fd => (fun _ => ()) <$> liftFs (sysClose fd)
  | .dup fd => (fun _ => ()) <$> liftFs (sysDup fd)
  | .exec (some path) (some argv) => (fun _ => ()) <$> Xv6.exec execOps path argv
  | .exec _ _ => pure ()
  | .exit => Xv6.exit
  | .fork => (fun _ => ()) <$> Xv6.fork
  | .fstat fd st => (fun _ => ()) <$> liftFs (sysFstat fd st)
  | .getpid => kact .getpid
  | .kill pid => kact (.kill pid)
  | .link old new => (fun _ => ()) <$> liftFs (sysLink old new)
  | .mkdir path => (fun _ => ()) <$> liftFs (sysMkdir path)
  | .mknod path major minor => (fun _ => ()) <$> liftFs (sysMknod path major minor)
  | .open path omode => (fun _ => ()) <$> liftFs (sysOpen path omode)
  | .pipe fdp => (fun _ => ()) <$> liftFs (sysPipe fdp)
  | .read fd p n => (fun _ => ()) <$> liftFs (sysRead fd p n)
  | .sbrk n => kact (.growproc n)
  | .sleep n => kact (.sleepTicks n)
  | .unlink path => (fun _ => ()) <$> liftFs (sysUnlink path)
  | .wait => kact .wait
  | .write fd p n => (fun _ => ()) <$> liftFs (sysWrite fd p n)
  | .uptime => kact .uptime

end Xv6

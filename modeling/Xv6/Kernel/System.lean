import Xv6.Kernel.Calls
import Xv6.Lib.Exec

/-! # The kernel as a transition system

One processor runs the system calls of all processes and is interrupted by the timer whenever the
bit `BL` of its status register is clear. A process has a stack of kernel programs, the system call
it is in at the bottom and the interrupt handlers that were entered since then above it; with an
empty stack it is in user mode. The state has what decides about interrupts (`SR`, `ncli`,
`intena`), about processes (state, killed flag) and about the flags `I_BUSY` and `B_BUSY`; all other
data is answered arbitrarily. A panic stops the system: there is no step from it. -/

namespace Xv6

open Lib Fs

/-! ## Interrupts -/

/-- `SR_BL_MASK`. -/
def SR_BL_MASK : BitVec 32 := 0x10000000#32

/-- The status register and the fields of `struct cpu` that `pushcli` and `popcli` use. -/
structure Cpu where
  sr : BitVec 32
  ncli : Nat
  intena : BitVec 32

namespace Cpu

/-- Interrupts are blocked: `BL` is set. -/
def blocked (c : Cpu) : Bool := c.sr &&& SR_BL_MASK ≠ 0#32

/-- `cli()`. -/
def cli (c : Cpu) : Cpu := { c with sr := c.sr ||| SR_BL_MASK }

/-- `sti()`. -/
def sti (c : Cpu) : Cpu := { c with sr := c.sr &&& ~~~SR_BL_MASK }

theorem blocked_cli (c : Cpu) : c.cli.blocked = true := by
  have hset : (c.sr ||| SR_BL_MASK) &&& SR_BL_MASK = SR_BL_MASK := by
    ext i hi
    simp only [BitVec.getElem_and, BitVec.getElem_or]
    cases (c.sr)[i] <;> simp
  simp only [blocked, cli, hset]
  decide

theorem blocked_sti (c : Cpu) : c.sti.blocked = false := by
  have hclear : c.sr &&& ~~~SR_BL_MASK &&& SR_BL_MASK = 0#32 := by
    ext i hi
    simp
  simp only [blocked, sti, hclear]
  decide

/-- `pushcli`. -/
def pushcli (c : Cpu) : Cpu :=
  { c.cli with
    ncli := c.ncli + 1
    intena := if c.ncli = 0 then c.sr ||| SR_BL_MASK else c.intena }

/-- `popcli`; `none` stands for its panics. -/
def popcli (c : Cpu) : Option Cpu :=
  if c.blocked = false then none
  else if c.ncli = 0 then none
  else if c.ncli - 1 = 0 ∧ c.intena ≠ 0#32 then some { c with ncli := c.ncli - 1 }.sti
  else some { c with ncli := c.ncli - 1 }

end Cpu

/-- How an action uses the spin locks. -/
inductive Spin
  /-- It takes no spin lock. -/
  | none
  /-- It is a section between an `acquire` and a `release`. -/
  | whole
  /-- It is `acquire`. -/
  | enter
  /-- It is `release`. -/
  | leave
  /-- It may sleep with a spin lock held, which it takes again afterwards. -/
  | waits

/-- How the actions of the file layers use the spin locks. -/
def Act.spin : Act → Spin
  | .bread _ | .bwrite _ _ | .brelse _ | .iget _ | .idup _ | .ilockBusy _ | .iunlock _
  | .iputTest _ | .iputFreed _ | .filealloc | .filedup _ | .filecloseRef _ | .kalloc | .kfree _
  | .pipeCloseEnd _ _ => .whole
  | .acquire _ => .enter
  | .release _ => .leave
  | .pipeWaitData _ | .pipeWaitRoom _ | .inputWait => .waits
  | _ => .none

/-- How the actions of the kernel use the spin locks. The functions of `vm.c` count as sections,
whether or not they come to call `kalloc` or `kfree`. -/
def KAct.spin : KAct → Spin
  | .fs a => a.spin
  | .timerTicks | .yield | .exitZombie | .findUnused | .allocKstack | .copyuvm | .freeKstack
  | .wait | .kill _ | .growproc _ | .sleepTicks _ | .uptime | .setupkvm | .allocuvm _ _ _
  | .freevm _ | .switchuvm => .whole
  | _ => .none

/-- The processor after an action. -/
def Spin.cpu (c : Cpu) : Spin → Option Cpu
  | .none => some c
  | .whole => c.pushcli.popcli
  | .enter => some c.pushcli
  | .leave => c.popcli
  | .waits => some (if c.ncli = 0 then c.pushcli else c)

/-- The actions in which a process may go to sleep, with the number of spin locks it holds then. -/
def KAct.sleeps : KAct → Option Nat
  | .fs (.bread _) | .fs (.ilockBusy _) | .wait | .sleepTicks _ => some 0
  | .fs (.pipeWaitData _) | .fs (.pipeWaitRoom _) | .fs .inputWait => some 1
  | _ => none

/-! ## States -/

/-- The flags `I_BUSY` of the cached inodes and `B_BUSY` of the buffers, by sector. -/
inductive BusyFlag
  | inode (ip : Slot)
  | buf (sector : Nat)
  deriving DecidableEq

/-- **A state of the kernel.** -/
structure Kernel where
  cpu : Cpu
  /-- `proc`. -/
  cur : Option Pid
  /-- `p->state`. -/
  state : Pid → ProcState
  /-- `p->killed`. -/
  killed : Pid → Bool
  /-- The local variable `intena` of `sched`. -/
  intena : Pid → BitVec 32
  /-- The local variable `np` of `fork`. -/
  np : Pid → Option Pid
  /-- What a process has still to do in the kernel. -/
  stack : Pid → List (KProg Unit)
  /-- The processes that set the busy flags that are set. -/
  busy : BusyFlag → Option Pid

/-- The first process. -/
def initproc : Pid := ⟨0, zero_lt_NPROC⟩

namespace Kernel

/-- Replace the state of a process. -/
def setState (s : Kernel) (p : Pid) (st : ProcState) : Kernel :=
  { s with state := Function.update s.state p st }

/-- Replace the stack of a process. -/
def setStack (s : Kernel) (p : Pid) (fs : List (KProg Unit)) : Kernel :=
  { s with stack := Function.update s.stack p fs }

/-- Replace a busy flag. -/
def setBusy (s : Kernel) (l : BusyFlag) (o : Option Pid) : Kernel :=
  { s with busy := Function.update s.busy l o }

/-- A kernel in which the given processes are in user mode and wait for the processor. -/
def start (live : Pid → Bool) : Kernel where
  cpu := ⟨0x40000000#32, 0, 0#32⟩
  cur := none
  state p := if live p then .RUNNABLE else .UNUSED
  killed _ := false
  intena _ := 0#32
  np _ := none
  stack _ := []
  busy _ := none

/-- The process leaves the processor through `sched`, with its new state. -/
def sched (s : Kernel) (p : Pid) (st : ProcState) : Kernel :=
  { s.setState p st with
    cur := none
    intena := Function.update s.intena p s.cpu.pushcli.intena }

end Kernel

/-! ## Steps -/

/-- What an action of the file layers by process `p` does to the busy flags. -/
def Act.flags (p : Pid) : (a : Act) → a.Resp → Kernel → Kernel → Prop
  | .bread n, _, s, t => s.busy (.buf n) = none ∧ t = s.setBusy (.buf n) (some p)
  | .bwrite n _, _, s, t => s.busy (.buf n) ≠ none ∧ t = s
  | .brelse n, _, s, t => s.busy (.buf n) ≠ none ∧ t = s.setBusy (.buf n) none
  | .ilockBusy ip, _, s, t => s.busy (.inode ip) = none ∧ t = s.setBusy (.inode ip) (some p)
  | .iunlock ip, _, s, t => s.busy (.inode ip) ≠ none ∧ t = s.setBusy (.inode ip) none
  | .iputTest ip, true, s, t => s.busy (.inode ip) = none ∧ t = s.setBusy (.inode ip) (some p)
  | .iputTest _, false, s, t => t = s
  | .iputFreed ip, _, s, t => t = s.setBusy (.inode ip) none
  | _, _, s, t => t = s

/-- What an action by process `p` does. -/
def KAct.effect (p : Pid) : (a : KAct) → a.Resp → Kernel → Kernel → Prop
  | .fs a, b, s, t => a.flags p b s t
  | .timerKilled, b, s, t => b = s.killed p ∧ t = s
  | .procRunning, b, s, t => b = decide (s.state p = .RUNNING) ∧ t = s
  | .isInit, b, s, t => b = decide (p = initproc) ∧ t = s
  | .findUnused, true, s, t =>
      ∃ q, s.state q = .UNUSED ∧
        t = { (s.setState q .EMBRYO).setStack q [] with np := Function.update s.np p (some q) }
  | .findUnused, false, s, t => (∀ q, s.state q ≠ .UNUSED) ∧ t = s
  | .dropChild, _, s, t =>
      ∃ q, s.np p = some q ∧ t = { s.setState q .UNUSED with np := Function.update s.np p none }
  | .startChild, _, s, t =>
      ∃ q, s.np p = some q ∧ t = { s.setState q .RUNNABLE with np := Function.update s.np p none }
  | .wait, _, s, t =>
      t = s ∨ ∃ q, s.state q = .ZOMBIE ∧
        t = { s.setState q .UNUSED with killed := Function.update s.killed q false }
  | .kill _, _, s, t =>
      t = s ∨ ∃ q, t = { s.setState q (if s.state q = .SLEEPING then .RUNNABLE else s.state q) with
        killed := Function.update s.killed q true }
  | _, _, s, t => t = s

/-- The events of the kernel. -/
inductive KEvent
  /-- The scheduler picks a process. -/
  | sched (p : Pid)
  /-- A sleeping process is woken up. -/
  | wake (p : Pid)
  /-- The timer interrupts the current process. -/
  | timer
  /-- The current process makes a system call. -/
  | syscall (c : Syscall)
  /-- The current process performs its next action. -/
  | act
  /-- The current process goes to sleep in its next action. -/
  | sleep
  /-- The current process calls `yield`. -/
  | yield
  /-- The current process becomes a zombie. -/
  | exit
  /-- The system call or interrupt handler of the current process returns. -/
  | ret

/-- **The steps of the kernel.** -/
inductive KStep : Kernel → KEvent → Kernel → Prop
  /-- `scheduler` switches to a runnable process, which comes back from `sched` and releases
  `ptable.lock`. -/
  | sched {s : Kernel} {p : Pid} {c : Cpu} (hcur : s.cur = none) (hp : s.state p = .RUNNABLE)
      (hc : Cpu.popcli ⟨s.cpu.sr ||| SR_BL_MASK, 1, s.intena p⟩ = some c)
      (hstack : s.stack p ≠ []) :
      KStep s (.sched p) { s.setState p .RUNNING with cur := some p, cpu := c }
  /-- The same for a process that goes on in user mode. -/
  | user {s : Kernel} {p : Pid} {sr intena : BitVec 32} (hcur : s.cur = none)
      (hp : s.state p = .RUNNABLE) (hstack : s.stack p = []) (hsr : sr &&& SR_BL_MASK = 0#32) :
      KStep s (.sched p) { s.setState p .RUNNING with cur := some p, cpu := ⟨sr, 0, intena⟩ }
  /-- `wakeup`, whatever the channel. -/
  | wake {s : Kernel} {p : Pid} (hp : s.state p = .SLEEPING) :
      KStep s (.wake p) (s.setState p .RUNNABLE)
  /-- An interrupt is accepted only if `BL` is clear, and sets it. -/
  | timer {s : Kernel} {p : Pid} (hcur : s.cur = some p) (hbl : s.cpu.blocked = false) :
      KStep s .timer { s.setStack p (doTimer :: s.stack p) with cpu := s.cpu.cli }
  /-- A system call is an exception, and sets `BL` too. -/
  | syscall {s : Kernel} {p : Pid} (c : Syscall) (hcur : s.cur = some p) (hstack : s.stack p = []) :
      KStep s (.syscall c) { s.setStack p [c.prog] with cpu := s.cpu.cli }
  /-- The next action. -/
  | act {s t : Kernel} {p : Pid} {a : KAct} {k : a.Resp → KProg Unit} {fs : List (KProg Unit)}
      {b : a.Resp} {c : Cpu} (hcur : s.cur = some p) (hstack : s.stack p = .act a k :: fs)
      (ha : a ≠ .yield) (hc : a.spin.cpu s.cpu = some c) (heff : a.effect p b s t) :
      KStep s .act { t.setStack p (k b :: fs) with cpu := c }
  /-- The next action has to wait. -/
  | sleep {s : Kernel} {p : Pid} {a : KAct} {k : a.Resp → KProg Unit} {fs : List (KProg Unit)}
      (hcur : s.cur = some p) (hstack : s.stack p = .act a k :: fs)
      (ha : a.sleeps = some s.cpu.ncli) : KStep s .sleep (s.sched p .SLEEPING)
  /-- `yield`; the process goes on after it when it is scheduled again. -/
  | yield {s : Kernel} {p : Pid} {k : KAct.Resp .yield → KProg Unit} {fs : List (KProg Unit)}
      (hcur : s.cur = some p) (hstack : s.stack p = .act .yield k :: fs) (hncli : s.cpu.ncli = 0) :
      KStep s .yield ((s.sched p .RUNNABLE).setStack p (k () :: fs))
  /-- The end of `exit`. -/
  | exit {s : Kernel} {p : Pid} {k : KAct.Resp .exitZombie → KProg Unit} {fs : List (KProg Unit)}
      (hcur : s.cur = some p) (hstack : s.stack p = .act .exitZombie k :: fs)
      (hncli : s.cpu.ncli = 0) : KStep s .exit (s.sched p .ZOMBIE)
  /-- `rte`: the status register is the one before the exception or interrupt, with `BL` clear. -/
  | ret {s : Kernel} {p : Pid} {fs : List (KProg Unit)} (hcur : s.cur = some p)
      (hstack : s.stack p = .ret () :: fs) :
      KStep s .ret { s.setStack p fs with cpu := s.cpu.sti }

end Xv6

import Xv6.Kernel.Spinlock

/-! # The code between the process table's lock and `swtch`

The functions of `proc.c`, `spinlock.c`, `timer.c` and `console.c` that take `ptable.lock`, give it
away and get it back, written statement by statement: a program can be interrupted before each of
its instructions. The rest of the kernel shows only as sections of other locks, with the calls of
`wakeup`, `sleep` and `cprintf` in them; which of these a system call goes through is left open, so
that every system call is covered. The three classes of locks are the order in which the kernel
nests them: `ptable.lock` inside a lock of the first class, the locks of the last class inside both.

Every context has a stack and a program. When an interrupt is accepted, its handler is put in front
of the program of the current context; when a process is done with its program it is in user mode,
and when the scheduler is done with its own it begins the next round. -/

namespace Xv6.Switch

open Lib

/-! ## Locks and channels -/

/-- The locks under which `ptable.lock` may be taken. -/
inductive Outer
  | tickslock
  | input
  | icache
  | bcache
  | ftable
  | pipe (addr : Nat)
  deriving DecidableEq

/-- The locks under which nothing else is taken. -/
inductive Leaf
  | cons
  | kmem
  | idelock
  deriving DecidableEq

/-- The spin locks of the kernel. -/
inductive Lock
  | outer (l : Outer)
  | ptable
  | leaf (l : Leaf)
  deriving DecidableEq

/-- What a process can sleep on. -/
inductive Chan
  /-- An entry of the process table. -/
  | proc (p : Pid)
  /-- Any other address. -/
  | addr (a : Nat)
  deriving DecidableEq

/-- `&ticks`. -/
def ticks : Chan := .addr 0

/-- `&input.r`. -/
def inputR : Chan := .addr 1

/-! ## What is left open -/

/-- What code under a lock of the first class does with other locks. -/
inductive Item
  | wakeup (c : Chan)
  /-- `sleep(c, lk)` with the lock that is held. -/
  | sleep (c : Chan)
  | cprintf

/-- What a process does with locks other than `ptable.lock` in a system call. -/
inductive Work
  /-- `acquire(&lk)`, some statements and `release(&lk)`. -/
  | section (l : Outer) (items : List Item)
  /-- The same for a lock of the last class. -/
  | leaf (l : Leaf)
  | switchuvm

/-- What a character of the console makes `consoleintr` do. -/
inductive Key
  /-- Control-P, with the number of calls of `cprintf`. -/
  | procdump (n : Nat)
  /-- A character that completes a line. -/
  | line
  | other

/-- The parts of a system call. -/
inductive Task
  | work (w : Work)
  | fork
  | wait
  | kill
  | yield
  | exit

/-- What the code asks of data that the model leaves open. -/
inductive Query
  /-- What a function of the file layers or of `vm.c` does. -/
  | work
  /-- The characters that have arrived. -/
  | keys
  /-- A number of repetitions. -/
  | count
  /-- Whether an allocation succeeds. -/
  | success
  /-- The entry of the process table with a given pid. -/
  | slot
  /-- The status register in the trapframe of a process. -/
  | ssr

/-- The answers. The status register of a process in user mode has `BL` clear. -/
abbrev Query.Answer : Query → Type
  | work => List Work
  | keys => List Key
  | count => Nat
  | success => Bool
  | slot => Option Pid
  | ssr => { sr : BitVec 32 // sr &&& SR_BL_MASK = 0#32 }

/-! ## Instructions -/

/-- The instructions. The entry `none` among the contexts is `cpu->scheduler`. -/
inductive Instr
  | readSr
  | cli
  | sti
  /-- The return from an exception or interrupt that saved the status register `sr`. -/
  | rte (sr : BitVec 32)
  | getNcli
  | setNcli (n : Nat)
  | getIntena
  | setIntena (v : BitVec 32)
  | getLock (l : Lock)
  | setLock (l : Lock) (v : Spinlock)
  /-- The loop of `acquire` until the lock is free. -/
  | spin (l : Lock)
  | getProc
  | setProc (p : Option Pid)
  | getState (p : Pid)
  | setState (p : Pid) (st : ProcState)
  | getKilled (p : Pid)
  | setKilled (p : Pid) (b : Bool)
  | getParent (p : Pid)
  | setParent (p : Pid) (q : Option Pid)
  | getChan (p : Pid)
  | setChan (p : Pid) (c : Option Chan)
  /-- The context of a new process, which starts in `forkret`, and its state `RUNNABLE`. -/
  | start (p : Pid)
  /-- `swtch(&old, new)`. -/
  | swtch (old new : Option Pid)
  | ask (q : Query)
  | panic (msg : String)

/-- The answers to instructions. -/
abbrev Instr.Resp : Instr → Type
  | readSr => BitVec 32
  | getNcli => Nat
  | getIntena => BitVec 32
  | getLock _ => Spinlock
  | getProc => Option Pid
  | getState _ => ProcState
  | getKilled _ => Bool
  | getParent _ => Option Pid
  | getChan _ => Option Chan
  | ask q => q.Answer
  | panic _ => Empty
  | _ => Unit

/-- Programs of instructions. -/
abbrev Code : Type → Type := Prog Instr Instr.Resp

/-- One instruction. -/
abbrev instr (a : Instr) : Code a.Resp := Prog.perform a

/-- `panic(msg)`. -/
def panic {α : Type} (msg : String) : Code α := .act (.panic msg) fun e => nomatch e

/-! ## `spinlock.c` -/

/-- `pushcli`. -/
def pushcli : Code Unit := do
  let sr ← instr .readSr
  instr .cli
  let n ← instr .getNcli
  instr (.setNcli (n + 1))
  if n = 0 then instr (.setIntena (sr ||| SR_BL_MASK)) else pure ()

/-- `popcli`. -/
def popcli : Code Unit := do
  let sr ← instr .readSr
  if sr &&& SR_BL_MASK = 0#32 then panic "popcli - interruptible"
  else do
    let n ← instr .getNcli
    if n = 0 then panic "popcli"
    else do
      instr (.setNcli (n - 1))
      let intena ← instr .getIntena
      if n - 1 = 0 ∧ intena ≠ 0#32 then instr .sti else pure ()

/-- The number of the only processor. -/
def cpuId : Nat := 0

/-- `holding(lk)`, for the lock as it was read. -/
def holding (lk : Spinlock) : Bool := lk.locked && lk.cpu = some cpuId

/-- `acquire(lk)`. -/
def acquire (l : Lock) : Code Unit := do
  pushcli
  let lk ← instr (.getLock l)
  if holding lk then panic "acquire"
  else do
    instr (.spin l)
    instr (.setLock l ⟨true, some cpuId⟩)

/-- `release(lk)`. -/
def release (l : Lock) : Code Unit := do
  let lk ← instr (.getLock l)
  if holding lk = false then panic "release"
  else do
    instr (.setLock l ⟨false, none⟩)
    popcli

/-! ## Switching -/

/-- `proc`, where it is dereferenced. -/
def curproc : Code Pid := do
  let p ← instr .getProc
  match p with
  | some p => pure p
  | none => panic "null pointer"

/-- `sched`. -/
def sched : Code Unit := do
  let lk ← instr (.getLock .ptable)
  if holding lk = false then panic "sched ptable.lock"
  else do
    let n ← instr .getNcli
    if n ≠ 1 then panic "sched locks"
    else do
      let p ← curproc
      let st ← instr (.getState p)
      if st = .RUNNING then panic "sched running"
      else do
        let sr ← instr .readSr
        if sr &&& SR_BL_MASK = 0#32 then panic "sched interruptible"
        else do
          let intena ← instr .getIntena
          instr (.swtch (some p) none)
          instr (.setIntena intena)

/-- `yield`. -/
def yield : Code Unit := do
  acquire .ptable
  let p ← curproc
  instr (.setState p .RUNNABLE)
  sched
  release .ptable

/-- `forkret`, and the return to user mode through `trapret`. -/
def forkret : Code Unit := do
  release .ptable
  let sr ← instr (.ask .ssr)
  instr (.rte sr.val)

/-- The part of `sleep` with `ptable.lock` held and `lk` given up. -/
def gotoSleep (p : Pid) (c : Chan) : Code Unit := do
  instr (.setChan p (some c))
  instr (.setState p .SLEEPING)
  sched
  let p ← curproc
  instr (.setChan p none)

/-- `sleep(chan, lk)`. -/
def sleep (c : Chan) (lk : Lock) : Code Unit := do
  let p ← instr .getProc
  match p with
  | none => panic "sleep"
  | some p => do
      (if lk ≠ .ptable then do
        acquire .ptable
        release lk
      else pure ())
      gotoSleep p c
      if lk ≠ .ptable then do
        release .ptable
        acquire lk
      else pure ()

/-- The entries of the process table, in order. -/
def table : List Pid := List.finRange NPROC

/-- The loop of `wakeup1`. A null channel is one that nobody sleeps on. -/
def wakeup1Loop (c : Option Chan) : List Pid → Code Unit
  | [] => pure ()
  | p :: ps => do
      let st ← instr (.getState p)
      (if st = .SLEEPING then do
        let pc ← instr (.getChan p)
        if pc = c then instr (.setState p .RUNNABLE) else pure ()
      else pure ())
      wakeup1Loop c ps

/-- `wakeup1(chan)`. -/
def wakeup1 (c : Option Chan) : Code Unit := wakeup1Loop c table

/-- `wakeup(chan)`. -/
def wakeup (c : Chan) : Code Unit := do
  acquire .ptable
  wakeup1 (some c)
  release .ptable

/-- `switchuvm`, as far as it blocks interrupts. -/
def switchuvm : Code Unit := do
  pushcli
  popcli

/-- The loop of `scheduler` over the process table. -/
def schedulerLoop : List Pid → Code Unit
  | [] => pure ()
  | p :: ps => do
      let st ← instr (.getState p)
      (if st = .RUNNABLE then do
        instr (.setProc (some p))
        switchuvm
        instr (.setState p .RUNNING)
        instr (.swtch none (some p))
        instr (.setProc none)
      else pure ())
      schedulerLoop ps

/-- One round of `scheduler`. -/
def scheduler : Code Unit := do
  instr .sti
  acquire .ptable
  schedulerLoop table
  release .ptable

/-! ## The other locks -/

/-- A section of a lock of the last class: `kalloc`, `kfree`, `cprintf`, `iderw`. -/
def leafSection (l : Leaf) : Code Unit := do
  acquire (.leaf l)
  release (.leaf l)

/-- Such sections one after the other. -/
def leafSections (l : Leaf) : Nat → Code Unit
  | 0 => pure ()
  | n + 1 => do
      leafSection l
      leafSections l n

/-- A statement under the lock `l`. -/
def Item.code (l : Outer) : Item → Code Unit
  | wakeup c => Switch.wakeup c
  | sleep c => Switch.sleep c (.outer l)
  | cprintf => leafSection .cons

/-- The statements under the lock `l`. -/
def itemsCode (l : Outer) : List Item → Code Unit
  | [] => pure ()
  | i :: is => do
      i.code l
      itemsCode l is

/-- A section of another lock. -/
def Work.code : Work → Code Unit
  | «section» l items => do
      acquire (.outer l)
      itemsCode l items
      release (.outer l)
  | leaf l => leafSection l
  | switchuvm => Switch.switchuvm

/-- Such sections one after the other. -/
def worksCode : List Work → Code Unit
  | [] => pure ()
  | w :: ws => do
      w.code
      worksCode ws

/-- A function of another part of the kernel. -/
def work : Code Unit := do
  let ws ← instr (.ask .work)
  worksCode ws

/-! ## Processes -/

/-- The loop of `exit` that passes the children of `p` to `init`. -/
def exitLoop (p : Pid) : List Pid → Code Unit
  | [] => pure ()
  | q :: qs => do
      let parent ← instr (.getParent q)
      (if parent = some p then do
        instr (.setParent q (some initproc))
        let st ← instr (.getState q)
        if st = .ZOMBIE then wakeup1 (some (.proc initproc)) else pure ()
      else pure ())
      exitLoop p qs

/-- `exit`. Closing the files and dropping the directory is work of the file layers. -/
def exit : Code Unit := do
  let p ← instr .getProc
  if p = some initproc then panic "init exiting"
  else do
    work
    acquire .ptable
    let p ← curproc
    let parent ← instr (.getParent p)
    wakeup1 (parent.map .proc)
    exitLoop p table
    instr (.setState p .ZOMBIE)
    sched
    panic "zombie exit"

/-- The loop of `wait` over the process table: whether a zombie was found, and whether there are
children. -/
def waitScan (p : Pid) : List Pid → (havekids : Bool) → Code (Bool × Bool)
  | [], havekids => pure (false, havekids)
  | q :: qs, havekids => do
      let parent ← instr (.getParent q)
      if parent ≠ some p then waitScan p qs havekids
      else do
        let st ← instr (.getState q)
        if st = .ZOMBIE then do
          -- kfree(p->kstack) and freevm(p->pgdir)
          let n ← instr (.ask .count)
          leafSections .kmem n
          instr (.setState q .UNUSED)
          instr (.setParent q none)
          instr (.setKilled q false)
          pure (true, true)
        else waitScan p qs true

/-- The endless loop of `wait`, with a bound on how often it sleeps. -/
def waitLoop : Nat → Code Unit
  | 0 => release .ptable
  | n + 1 => do
      let p ← curproc
      let (zombie, havekids) ← waitScan p table false
      if zombie then release .ptable
      else do
        let killed ← instr (.getKilled p)
        if havekids = false ∨ killed = true then release .ptable
        else do
          sleep (.proc p) .ptable
          waitLoop n

/-- `wait`. The bound on its loop is left open. -/
def wait : Code Unit := do
  acquire .ptable
  let n ← instr (.ask .count)
  waitLoop n

/-- The search of `allocproc` for an unused entry. -/
def findUnused : List Pid → Code (Option Pid)
  | [] => pure none
  | p :: ps => do
      let st ← instr (.getState p)
      if st = .UNUSED then pure (some p) else findUnused ps

/-- `allocproc`, up to the context, which nobody looks at before the process is `RUNNABLE`. -/
def allocproc : Code (Option Pid) := do
  acquire .ptable
  let p ← findUnused table
  match p with
  | none => do
      release .ptable
      pure none
  | some p => do
      instr (.setState p .EMBRYO)
      release .ptable
      leafSection .kmem
      let ok ← instr (.ask .success)
      if ok = true then pure (some p)
      else do
        instr (.setState p .UNUSED)
        pure none

/-- `fork`. -/
def fork : Code Unit := do
  let np ← allocproc
  match np with
  | none => pure ()
  | some np => do
      -- copyuvm
      work
      let ok ← instr (.ask .success)
      if ok = true then do
        let p ← instr .getProc
        instr (.setParent np p)
        -- filedup and idup
        work
        instr (.start np)
      else do
        leafSection .kmem
        instr (.setState np .UNUSED)

/-- `kill`, for the process with the given pid if there is one. -/
def kill : Code Unit := do
  acquire .ptable
  let q ← instr (.ask .slot)
  match q with
  | none => release .ptable
  | some q => do
      instr (.setKilled q true)
      let st ← instr (.getState q)
      (if st = .SLEEPING then instr (.setState q .RUNNABLE) else pure ())
      release .ptable

/-! ## Handlers -/

/-- The test `proc && proc->killed` of `do_timer`, and the call of `exit`. -/
def timerKilled : Code Unit := do
  let p ← instr .getProc
  match p with
  | none => pure ()
  | some p => do
      let killed ← instr (.getKilled p)
      if killed = true then exit else pure ()

/-- `do_timer`. -/
def doTimer : Code Unit := do
  acquire (.outer .tickslock)
  wakeup ticks
  release (.outer .tickslock)
  timerKilled
  let p ← instr .getProc
  (match p with
    | none => pure ()
    | some p => do
        let st ← instr (.getState p)
        if st = .RUNNING then yield else pure ())
  timerKilled

/-- What `consoleintr` does with a character. -/
def Key.code : Key → Code Unit
  | procdump n => leafSections .cons n
  | line => wakeup inputR
  | other => pure ()

/-- The loop of `consoleintr`. -/
def keysCode : List Key → Code Unit
  | [] => pure ()
  | k :: ks => do
      k.code
      keysCode ks

/-- `consoleintr`. -/
def consoleintr : Code Unit := do
  acquire (.outer .input)
  let ks ← instr (.ask .keys)
  keysCode ks
  release (.outer .input)

/-- The interrupts. -/
inductive Irq
  | timer
  | scif

/-- The handler of an interrupt. -/
def Irq.handler : Irq → Code Unit
  | timer => doTimer
  | scif => consoleintr

/-- A part of a system call. -/
def Task.code : Task → Code Unit
  | work w => w.code
  | fork => Switch.fork
  | wait => Switch.wait
  | kill => Switch.kill
  | yield => Switch.yield
  | exit => Switch.exit

/-- A system call. -/
def tasksCode : List Task → Code Unit
  | [] => pure ()
  | t :: ts => do
      t.code
      tasksCode ts

/-! ## States -/

/-- The state of the processor, the locks and the process table. -/
structure St where
  cpu : Cpu
  lock : Lock → Spinlock
  /-- `proc`. -/
  proc : Option Pid
  state : Pid → ProcState
  killed : Pid → Bool
  parent : Pid → Option Pid
  chan : Pid → Option Chan

namespace St

/-- Replace the status register. -/
def setSr (s : St) (sr : BitVec 32) : St := { s with cpu := { s.cpu with sr := sr } }

/-- Replace the state of a process. -/
def setState (s : St) (p : Pid) (st : ProcState) : St :=
  { s with state := Function.update s.state p st }

/-- Replace a lock. -/
def setLock (s : St) (l : Lock) (v : Spinlock) : St :=
  { s with lock := Function.update s.lock l v }

end St

/-- What an instruction that concerns only the state answers and does; `swtch` and `panic` do not
come back. -/
def Instr.Does : (a : Instr) → St → a.Resp → St → Prop
  | readSr, s, b, t => b = s.cpu.sr ∧ t = s
  | cli, s, _, t => t = { s with cpu := s.cpu.cli }
  | sti, s, _, t => t = { s with cpu := s.cpu.sti }
  | rte sr, s, _, t => t = s.setSr sr
  | getNcli, s, b, t => b = s.cpu.ncli ∧ t = s
  | setNcli n, s, _, t => t = { s with cpu := { s.cpu with ncli := n } }
  | getIntena, s, b, t => b = s.cpu.intena ∧ t = s
  | setIntena v, s, _, t => t = { s with cpu := { s.cpu with intena := v } }
  | getLock l, s, b, t => b = s.lock l ∧ t = s
  | setLock l v, s, _, t => t = s.setLock l v
  | spin l, s, _, t => (s.lock l).locked = false ∧ t = s
  | getProc, s, b, t => b = s.proc ∧ t = s
  | setProc p, s, _, t => t = { s with proc := p }
  | getState p, s, b, t => b = s.state p ∧ t = s
  | setState p st, s, _, t => t = s.setState p st
  | getKilled p, s, b, t => b = s.killed p ∧ t = s
  | setKilled p b, s, _, t => t = { s with killed := Function.update s.killed p b }
  | getParent p, s, b, t => b = s.parent p ∧ t = s
  | setParent p q, s, _, t => t = { s with parent := Function.update s.parent p q }
  | getChan p, s, b, t => b = s.chan p ∧ t = s
  | setChan p c, s, _, t => t = { s with chan := Function.update s.chan p c }
  | start p, s, _, t => t = s.setState p .RUNNABLE
  | swtch _ _, _, _, _ => False
  | ask _, s, _, t => t = s
  | panic _, _, _, _ => False

/-- What `swtch` saves, on the stack of the context. -/
structure Context where
  /-- The process whose kernel stack it is; `none` for the stack of the scheduler. -/
  stack : Option Pid
  prog : Code Unit
  sr : BitVec 32

/-- The context that `allocproc` makes for a process. -/
def freshContext (p : Pid) : Context := ⟨some p, forkret, 0x70000000#32⟩

/-- **A state of the system**: the state of the processor and the tables, the context that runs, and
the saved ones. -/
structure Sys where
  st : St
  stack : Option Pid
  prog : Code Unit
  /-- `p->context`, and `cpu->scheduler` at `none`. -/
  saved : Option Pid → Option Context

/-- The contexts after an instruction other than `swtch`. -/
def Instr.contexts (saved : Option Pid → Option Context) : Instr → Option Pid → Option Context
  | start p => Function.update saved (some p) (some (freshContext p))
  | _ => saved

/-- The status register in a handler: `MD`, `RB` and `BL` are set. -/
def handlerSr (sr : BitVec 32) : BitVec 32 := sr ||| 0x70000000#32

/-- The events. -/
inductive Event
  /-- The current context executes an instruction. -/
  | instr (a : Instr)
  /-- An interrupt is accepted. -/
  | irq (i : Irq)
  /-- The current process makes a system call. -/
  | syscall (ts : List Task)
  /-- The scheduler begins a round. -/
  | round

/-- **The steps of the system.** -/
inductive Step : Sys → Event → Sys → Prop
  | instr {s : Sys} {a : Instr} {k : a.Resp → Code Unit} {b : a.Resp} {t : St}
      (hprog : s.prog = .act a k) (hdoes : a.Does s.st b t) :
      Step s (.instr a) ⟨t, s.stack, k b, a.contexts s.saved⟩
  | swtch {s : Sys} {old new : Option Pid} {k : Unit → Code Unit} {c : Context}
      (hprog : s.prog = .act (.swtch old new) k) (hnew : s.saved new = some c) :
      Step s (.instr (.swtch old new))
        ⟨s.st.setSr c.sr, c.stack, c.prog,
          Function.update s.saved old (some ⟨s.stack, k (), s.st.cpu.sr⟩)⟩
  /-- An interrupt is accepted only if `BL` is clear, and sets it. -/
  | irq {s : Sys} (i : Irq) (hbl : s.st.cpu.blocked = false) :
      Step s (.irq i)
        ⟨s.st.setSr (handlerSr s.st.cpu.sr), s.stack,
          (do i.handler; Switch.instr (.rte s.st.cpu.sr); s.prog), s.saved⟩
  | syscall {s : Sys} {p : Pid} (ts : List Task) (hstack : s.stack = some p)
      (hprog : s.prog = .ret ()) :
      Step s (.syscall ts)
        ⟨s.st.setSr (handlerSr s.st.cpu.sr), s.stack,
          (do tasksCode ts; Switch.instr (.rte s.st.cpu.sr)), s.saved⟩
  | round {s : Sys} (hstack : s.stack = none) (hprog : s.prog = .ret ()) :
      Step s .round ⟨s.st, none, scheduler, s.saved⟩

/-- **The system when `scheduler` is called**, with any status register: the first process is about
to start, and no lock is held. -/
def boot (sr : BitVec 32) : Sys where
  st :=
    { cpu := ⟨sr, 0, 0#32⟩
      lock := fun _ => ⟨false, none⟩
      proc := none
      state := fun p => if p = initproc then .RUNNABLE else .UNUSED
      killed := fun _ => false
      parent := fun _ => none
      chan := fun _ => none }
  stack := none
  prog := .ret ()
  saved := fun
    | some p => if p = initproc then some (freshContext p) else none
    | none => none

end Xv6.Switch

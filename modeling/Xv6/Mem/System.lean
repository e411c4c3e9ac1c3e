import Xv6.Vm.Image
import Xv6.Fs.Act
import Xv6.Lib.Exec

/-! # Processes, pipes and the pages they use

The calls that take physical pages and give them back (`fork`, `exec`, `sbrk`, `pipe`, `close`,
`exit` and `wait`) on the memory of `Xv6.Vm`, and the boot code up to the first process. Every call
runs to completion, so that the system is a transition system with one step for each call. What a
process writes to its own memory is left out, and a process is kept without its registers, its name
and its working directory. -/

namespace Xv6.Mem

open Lib Run Vm

/-- `struct proc`, as far as pages are concerned. -/
structure Proc where
  state : ProcState
  /-- The address of the kernel stack. -/
  kstack : Nat
  /-- The address of the page directory. -/
  pgdir : Nat
  sz : Nat
  parent : Option Pid
  ofile : Fd → Option Fid

/-- `struct file`, as far as pages are concerned. -/
structure PFile where
  type : FdType
  ref : Nat
  writable : Bool
  /-- The address of the pipe. -/
  pipe : Nat

/-- **The state of the system.** -/
structure Sys where
  phys : Phys
  proc : Pid → Proc
  file : Fid → PFile
  /-- `readopen` of the pipe at an address. -/
  readopen : Nat → Bool
  /-- `writeopen` of the pipe at an address. -/
  writeopen : Nat → Bool
  /-- The stack that `jkstack` allocates. -/
  bootStack : Nat
  kpgdir : Nat

/-- A computation on the system. -/
abbrev MemM : Type → Type := Run Stop Sys

/-- Another memory. -/
def Sys.putPhys (s : Sys) (u : Phys) : Sys := { s with phys := u }

/-- A computation on the memory. -/
def onPhys {α : Type} (m : VmM α) : MemM α := zoom Sys.phys (fun u s => s.putPhys u) m

/-- Another entry of the process table. -/
def Sys.putProc (s : Sys) (q : Pid) (x : Proc) : Sys :=
  { s with proc := Function.update s.proc q x }

/-- Another entry of the file table. -/
def Sys.putFile (s : Sys) (f : Fid) (x : PFile) : Sys :=
  { s with file := Function.update s.file f x }

/-- Assign to an entry of the process table. -/
def setProc (q : Pid) (f : Proc → Proc) : MemM Unit := modify fun s => s.putProc q (f (s.proc q))

/-- Assign to an entry of the file table. -/
def setFile (f : Fid) (g : PFile → PFile) : MemM Unit := modify fun s => s.putFile f (g (s.file f))

/-- The entry of `initproc`. -/
def initproc : Pid := ⟨0, zero_lt_NPROC⟩

/-! ## `file.c` and `pipe.c` -/

/-- `filealloc`. -/
def filealloc : MemM (Option Fid) := do
  let s ← get
  match (List.finRange NFILE).find? fun f => (s.file f).ref = 0 with
  | none => pure none
  | some f => do
      setFile f fun x => { x with ref := 1 }
      pure (some f)

/-- `filedup`. -/
def filedup (f : Fid) : MemM Unit := do
  let s ← get
  if (s.file f).ref < 1 then stop (.panic "filedup")
  else setFile f fun x => { x with ref := x.ref + 1 }

/-- `pipeclose`. -/
def pipeclose (p : Nat) (writable : Bool) : MemM Unit := do
  (if writable then modify fun s => { s with writeopen := Function.update s.writeopen p false }
    else modify fun s => { s with readopen := Function.update s.readopen p false })
  let s ← get
  if s.readopen p = false ∧ s.writeopen p = false then onPhys (kfree p) else pure ()

/-- `fileclose`. -/
def fileclose (f : Fid) : MemM Unit := do
  let s ← get
  let ff := s.file f
  if ff.ref < 1 then stop (.panic "fileclose")
  else if ff.ref - 1 > 0 then setFile f fun x => { x with ref := x.ref - 1 }
  else do
    setFile f fun x => { x with ref := 0, type := .none }
    if ff.type = .pipe then pipeclose ff.pipe ff.writable else pure ()

/-- `pipealloc`. -/
def pipealloc : MemM (Option (Fid × Fid)) := do
  let f0 ← filealloc
  match f0 with
  | none => pure none
  | some f0 => do
      let f1 ← filealloc
      match f1 with
      | none => do
          fileclose f0
          pure none
      | some f1 => do
          let p ← onPhys kalloc
          match p with
          | none => do
              fileclose f0
              fileclose f1
              pure none
          | some p => do
              modify fun s => { s with
                readopen := Function.update s.readopen p true
                writeopen := Function.update s.writeopen p true }
              setFile f0 fun x => { x with type := .pipe, writable := false, pipe := p }
              setFile f1 fun x => { x with type := .pipe, writable := true, pipe := p }
              pure (some (f0, f1))

/-! ## `sysfile.c` -/

/-- `fdalloc`. -/
def fdalloc (p : Pid) (f : Fid) : MemM (Option Fd) := do
  let s ← get
  match (List.finRange NOFILE).find? fun fd => (s.proc p).ofile fd = none with
  | none => pure none
  | some fd => do
      setProc p fun x => { x with ofile := Function.update x.ofile fd (some f) }
      pure (some fd)

/-- `sys_pipe`; the result says whether it succeeds. -/
def sysPipe (p : Pid) : MemM Bool := do
  let r ← pipealloc
  match r with
  | none => pure false
  | some (rf, wf) => do
      let fd0 ← fdalloc p rf
      match fd0 with
      | none => do
          fileclose rf
          fileclose wf
          pure false
      | some fd0 => do
          let fd1 ← fdalloc p wf
          match fd1 with
          | none => do
              setProc p fun x => { x with ofile := Function.update x.ofile fd0 none }
              fileclose rf
              fileclose wf
              pure false
          | some _ => pure true

/-- `sys_close` of a descriptor in the range of `argfd`. -/
def sysClose (p : Pid) (fd : Fd) : MemM Bool := do
  let s ← get
  match (s.proc p).ofile fd with
  | none => pure false
  | some f => do
      setProc p fun x => { x with ofile := Function.update x.ofile fd none }
      fileclose f
      pure true

/-! ## `proc.c` -/

/-- `allocproc`. -/
def allocproc : MemM (Option Pid) := do
  let s ← get
  match (List.finRange NPROC).find? fun q => (s.proc q).state = .UNUSED with
  | none => pure none
  | some q => do
      setProc q fun x => { x with state := .EMBRYO }
      let kstack ← onPhys kalloc
      match kstack with
      | none => do
          setProc q fun x => { x with kstack := 0, state := .UNUSED }
          pure none
      | some k => do
          setProc q fun x => { x with kstack := k }
          pure (some q)

/-- The loop of `fork` that duplicates the open files. -/
def dupFiles (p np : Pid) : List Fd → MemM Unit
  | [] => pure ()
  | fd :: fds => do
      let s ← get
      (match (s.proc p).ofile fd with
        | none => pure ()
        | some f => do
            filedup f
            setProc np fun x => { x with ofile := Function.update x.ofile fd (some f) })
      dupFiles p np fds

/-- `fork`; the result says whether it succeeds. -/
def fork (fuel : Nat) (p : Pid) : MemM Bool := do
  let np ← allocproc
  match np with
  | none => pure false
  | some np => do
      let s ← get
      let d ← onPhys (Vm.copyuvm fuel (s.proc p).pgdir (s.proc p).sz)
      match d with
      | none => do
          onPhys (kfree (s.proc np).kstack)
          setProc np fun x => { x with pgdir := 0, kstack := 0, state := .UNUSED }
          pure false
      | some d => do
          setProc np fun x => { x with pgdir := d, sz := (s.proc p).sz, parent := some p }
          dupFiles p np (List.finRange NOFILE)
          setProc np fun x => { x with state := .RUNNABLE }
          pure true

/-- `sys_sbrk`; the result says whether it succeeds. -/
def sysSbrk (fuel : Nat) (p : Pid) (n : Int) : MemM Bool := do
  let s ← get
  let (r, sz) ← onPhys (growproc fuel (s.proc p).pgdir (s.proc p).sz n)
  setProc p fun x => { x with sz := sz }
  pure (r = 0)

/-- The process as `exec` sees it. -/
def execView (p : Pid) (s : Sys) : ExecState :=
  ⟨s.phys, 0, false, (s.proc p).pgdir, (s.proc p).sz, [], 0, 0⟩

/-- What `exec` has done to the process. -/
def execDone (p : Pid) (x : ExecState) (s : Sys) : Sys :=
  (s.putPhys x.phys).putProc p { s.proc p with pgdir := x.pgdir, sz := x.sz }

/-- `exec` of a file with the given content, if there is one; the result says whether it succeeds. -/
def execFile (fuel : Nat) (p : Pid) (file : Option (List UInt8)) (path : List UInt8)
    (argv : List (List UInt8)) : MemM Bool := do
  let r ← zoom (execView p) (execDone p) (execImage file fuel path argv)
  pure (r = 0)

/-- The loop of `exit` that closes the open files. -/
def closeFiles (p : Pid) : List Fd → MemM Unit
  | [] => pure ()
  | fd :: fds => do
      let s ← get
      (match (s.proc p).ofile fd with
        | none => pure ()
        | some f => do
            fileclose f
            setProc p fun x => { x with ofile := Function.update x.ofile fd none })
      closeFiles p fds

/-- `exit`. -/
def exit (p : Pid) : MemM Unit :=
  if p = initproc then stop (.panic "init exiting")
  else do
    closeFiles p (List.finRange NOFILE)
    -- pass abandoned children to init
    modify fun s => { s with
      proc := fun q => if (s.proc q).parent = some p then { s.proc q with parent := some initproc }
        else s.proc q }
    setProc p fun x => { x with state := .ZOMBIE }

/-- `wait`, up to the point where it returns or sleeps; the result says whether it has found a
child. -/
def wait (fuel : Nat) (p : Pid) : MemM Bool := do
  let s ← get
  match (List.finRange NPROC).find? fun q =>
      (s.proc q).parent = some p ∧ (s.proc q).state = .ZOMBIE with
  | none => pure false
  | some q => do
      onPhys (kfree (s.proc q).kstack)
      onPhys (freevm fuel (s.proc q).pgdir)
      setProc q fun x => { x with kstack := 0, state := .UNUSED, parent := none }
      pure true

/-! ## The steps -/

/-- A system call. The argument of `sbrk` is an `int`, and the executable is given by its content. -/
inductive Call
  | fork
  | exec (file : Option (List UInt8)) (path : List UInt8) (argv : List (List UInt8))
  | sbrk (n : BitVec 32)
  | pipe
  | close (fd : Fd)
  | exit
  | wait

/-- **A system call** of the process `p`; the result says whether it succeeds, and `false` stands for
the value -1. -/
def Call.run (fuel : Nat) (p : Pid) : Call → MemM Bool
  | .fork => Mem.fork fuel p
  | .exec file path argv => execFile fuel p file path argv
  | .sbrk n => sysSbrk fuel p n.toInt
  | .pipe => sysPipe p
  | .close fd => sysClose p fd
  | .exit => do
      Mem.exit p
      pure true
  | .wait => Mem.wait fuel p

/-- The process can make a system call. -/
def Sys.Live (s : Sys) (p : Pid) : Prop := (s.proc p).state ≠ .UNUSED ∧ (s.proc p).state ≠ .ZOMBIE

/-- `s` goes to `t` by a call that returns. -/
def Step (s : Sys) (e : Pid × Call) (t : Sys) : Prop :=
  s.Live e.1 ∧ ∃ fuel r, e.2.run fuel e.1 s = .ok (r, t)

/-- The call ends in a panic. -/
def Panics (s : Sys) (e : Pid × Call) (msg : String) : Prop :=
  s.Live e.1 ∧ ∃ fuel, e.2.run fuel e.1 s = .error (.panic msg)

/-! ## The boot code -/

/-- **The address `end`** of the first byte after the kernel, which is loaded at `0x8c800000`. -/
structure KernelEnd where
  addr : Nat
  low : 0x8c800000 ≤ addr
  high : addr ≤ PHYSTOP

/-- `PGROUNDUP(end)` as a page number. -/
def KernelEnd.page (e : KernelEnd) : Nat := pgroundup e.addr / PGSIZE

/-- The loop of `kinit`. -/
def kinitLoop : (fuel p : Nat) → VmM Unit
  | 0, _ => stop .loop
  | fuel + 1, p =>
      if p + PGSIZE - 1 < PHYSTOP then do
        kfree p
        kinitLoop fuel (p + PGSIZE)
      else pure ()

/-- `kinit`. -/
def kinit (fuel : Nat) (e : KernelEnd) : VmM Unit := kinitLoop fuel (pgroundup e.addr)

/-- `jkstack`, up to the jump. -/
def jkstack : MemM Unit := do
  let kstack ← onPhys kalloc
  match kstack with
  | none => stop (.panic "jkstack\n")
  | some k => modify fun s => { s with bootStack := k }

/-- `kvmalloc`. -/
def kvmalloc : MemM Unit := do
  let d ← onPhys setupkvm
  modify fun s => { s with kpgdir := d.getD 0 }

/-- `inituvm` of the code of the first process. -/
def inituvm (fuel pgdir : Nat) (init : List UInt8) : VmM Unit := do
  let mem ← kalloc
  let mem := mem.getD 0
  if init.length ≥ PGSIZE then Vm.panic "inituvm: more than a page"
  else do
    memset mem 0 PGSIZE
    let _ ← mappages fuel pgdir 0 PGSIZE mem PTEL_DEFAULT
    store mem init

/-- `userinit`. Without memory for `allocproc` there is none for `setupkvm` either. -/
def userinit (fuel : Nat) (init : List UInt8) : MemM Unit := do
  let p ← allocproc
  match p with
  | none => stop (.panic "userinit: out of memory?")
  | some p => do
      let d ← onPhys setupkvm
      match d with
      | none => stop (.panic "userinit: out of memory?")
      | some d => do
          setProc p fun x => { x with pgdir := d }
          onPhys (inituvm fuel d init)
          setProc p fun x => { x with sz := PGSIZE, state := .RUNNABLE }

/-- The boot code up to the first process. -/
def boot (fuel : Nat) (e : KernelEnd) (init : List UInt8) : MemM Unit := do
  onPhys (kinit fuel e)
  jkstack
  kvmalloc
  userinit fuel init

/-- The state before `kinit`: any memory, and zeros in the kernel's data. -/
def Sys.zero (mem : Nat → UInt8) : Sys where
  phys := ⟨mem, 0⟩
  proc _ := ⟨.UNUSED, 0, 0, 0, none, fun _ => none⟩
  file _ := ⟨.none, 0, false, 0⟩
  readopen _ := false
  writeopen _ := false
  bootStack := 0
  kpgdir := 0

/-- The system has booted. -/
def Booted (e : KernelEnd) (s : Sys) : Prop :=
  ∃ fuel mem init, boot fuel e init (Sys.zero mem) = .ok ((), s)

/-- **A run of the system** from its boot on. -/
def MemRun (e : KernelEnd) (tr : List (Sys × Pid × Call)) (s : Sys) : Prop :=
  ∃ s₀, Booted e s₀ ∧ Lib.Exec Step s₀ tr s

end Xv6.Mem

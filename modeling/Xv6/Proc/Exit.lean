import Xv6.Kernel.System
import Mathlib.Data.List.Nodup

/-! # `exit` and the timer interrupt

The steps of `exit` by one process, with the timer interrupts it accepts on the way and what the
other processes do while it is not running. The process has a stack of frames: calls of `exit` and
of `do_timer`. Every release of a lock enables interrupts, and `do_timer` calls `exit` itself for a
process that has been killed. -/

namespace Xv6.Exit

open Lib Fs

/-- Where a call of `exit` is. -/
inductive ExitPc
  /-- At the test for `initproc`. -/
  | start
  /-- In the loop over the open files, with the descriptors that are left. -/
  | files (fds : List Fd)
  /-- At the call of `fileclose` for a descriptor. -/
  | close (fd : Fd) (f : Fid) (fds : List Fd)
  /-- In `fileclose`, which has dropped the last reference and closes a pipe or an inode. -/
  | closing (fd : Fd) (fds : List Fd)
  /-- At the assignment `proc->ofile[fd] = 0`. -/
  | clear (fd : Fd) (fds : List Fd)
  /-- At the call of `iput` for the current directory. -/
  | putCwd
  /-- In that call. -/
  | putting
  /-- At the assignment `proc->cwd = 0`. -/
  | clearCwd
  /-- At the section that makes the process a zombie. -/
  | zombie

/-- Where a call of `do_timer` is. -/
inductive TimerPc
  /-- At the section under `tickslock`. -/
  | ticks
  /-- At the first test of `proc->killed`. -/
  | killed
  /-- At the test of `proc->state` before `yield`. -/
  | running
  /-- At the second test of `proc->killed`. -/
  | killedAgain
  /-- At the return. -/
  | ret

/-- A call on the kernel stack of the process. -/
inductive Frame
  | exit (pc : ExitPc)
  | timer (pc : TimerPc)

/-- **A process in `exit`.** -/
structure ExitState where
  cpu : Cpu
  /-- `proc->state`. -/
  state : ProcState
  /-- `proc->killed`. -/
  killed : Bool
  /-- `proc == initproc`. -/
  isInit : Bool
  /-- `proc->ofile`. -/
  ofile : Fd → Option Fid
  /-- `proc->cwd`. -/
  cwd : Option Slot
  /-- The reference counts of the open files. -/
  ref : Fid → Nat
  stack : List Frame
  /-- How often `exit` has been entered again. -/
  again : Nat
  /-- The references dropped by calls of `fileclose` in `exit`. -/
  closed : List (Fd × Fid)
  /-- The references dropped by calls of `iput` for the current directory. -/
  puts : List Slot

/-- What happens next. -/
inductive ExitEvent
  /-- The next step of the process. -/
  | act
  /-- A section under a lock inside `pipeclose` or `iput`. -/
  | inner
  /-- The process has to wait inside `iput`. -/
  | sleep
  /-- The process is woken up. -/
  | wake
  /-- The scheduler picks the process. -/
  | sched
  /-- A timer interrupt. -/
  | timer
  /-- Another process calls `kill` for the process. -/
  | kill
  /-- Other processes change the number of references to a file. -/
  | others (f : Fid) (n : Nat)

namespace ExitState

/-- The process goes on in its topmost call. -/
def goto (s : ExitState) (fr : Frame) (frs : List Frame) : ExitState := { s with stack := fr :: frs }

/-- The processor after a section under a lock. -/
def locked (s : ExitState) (t : ExitState) : Option ExitState :=
  s.cpu.pushcli.popcli.map fun c => { t with cpu := c }

/-- `sched`: the process leaves the processor with `ptable.lock` held. -/
def leave (s : ExitState) (st : ProcState) : ExitState :=
  { s with cpu := s.cpu.pushcli, state := st }

/-- A step of `exit`; `none` stands for its panics. -/
def exitAct (s : ExitState) (frs : List Frame) : ExitPc → Option ExitState
  | .start =>
      if s.isInit then none else some (s.goto (.exit (.files (List.finRange NOFILE))) frs)
  | .files [] => some (s.goto (.exit .putCwd) frs)
  | .files (fd :: fds) =>
      match s.ofile fd with
      | some f => some (s.goto (.exit (.close fd f fds)) frs)
      | none => some (s.goto (.exit (.files fds)) frs)
  | .close fd f fds =>
      if s.ref f < 1 then none
      else
        let next := if 0 < s.ref f - 1 then ExitPc.clear fd fds else ExitPc.closing fd fds
        s.locked { s.goto (.exit next) frs with
          ref := Function.update s.ref f (s.ref f - 1), closed := s.closed ++ [(fd, f)] }
  | .closing fd fds => some (s.goto (.exit (.clear fd fds)) frs)
  | .clear fd fds =>
      some { s.goto (.exit (.files fds)) frs with ofile := Function.update s.ofile fd none }
  | .putCwd =>
      s.cwd.bind fun ip => s.locked { s.goto (.exit .putting) frs with puts := s.puts ++ [ip] }
  | .putting => some (s.goto (.exit .clearCwd) frs)
  | .clearCwd => some { s.goto (.exit .zombie) frs with cwd := none }
  | .zombie => some ((s.goto (.exit .zombie) frs).leave .ZOMBIE)

/-- `exit` is called. -/
def enter (s : ExitState) (frs : List Frame) : ExitState :=
  { s.goto (.exit .start) frs with again := s.again + 1 }

/-- A step of `do_timer`. -/
def timerAct (s : ExitState) (frs : List Frame) : TimerPc → Option ExitState
  | .ticks => s.locked (s.goto (.timer .killed) frs)
  | .killed =>
      some (if s.killed then s.enter (.timer .running :: frs) else s.goto (.timer .running) frs)
  | .running => some ((s.goto (.timer .killedAgain) frs).leave .RUNNABLE)
  | .killedAgain =>
      some (if s.killed then s.enter (.timer .ret :: frs) else s.goto (.timer .ret) frs)
  | .ret => some { s with stack := frs, cpu := s.cpu.sti }

/-- The next step of the process. -/
def act (s : ExitState) : Option ExitState :=
  match s.stack with
  | .exit pc :: frs => s.exitAct frs pc
  | .timer pc :: frs => s.timerAct frs pc
  | [] => none

/-- The process is inside a call of `pipeclose` or `iput`. -/
def busy (s : ExitState) : Bool :=
  match s.stack with
  | .exit (.closing _ _) :: _ | .exit .putting :: _ => true
  | _ => false

/-- **The steps of the system.** -/
def step (s : ExitState) : ExitEvent → Option ExitState
  | .act => if s.state = .RUNNING then s.act else none
  | .inner => if s.state = .RUNNING ∧ s.busy = true then s.locked s else none
  | .sleep => if s.state = .RUNNING ∧ s.busy = true then some (s.leave .SLEEPING) else none
  | .wake => if s.state = .SLEEPING then some { s with state := .RUNNABLE } else none
  | .sched =>
      if s.state = .RUNNABLE then s.cpu.popcli.map fun c => { s with cpu := c, state := .RUNNING }
      else none
  | .timer =>
      if s.state = .RUNNING ∧ s.cpu.blocked = false then
        some { s.goto (.timer .ticks) s.stack with cpu := s.cpu.cli }
      else none
  | .kill => if s.state = .RUNNING then none else some { s with killed := true }
  | .others f n =>
      if s.state = .RUNNING then none else some { s with ref := Function.update s.ref f n }

/-- A process that calls `exit`. -/
def start (cpu : Cpu) (killed isInit : Bool) (files : Fd → Option Fid) (ip : Slot)
    (ref : Fid → Nat) : ExitState where
  cpu := cpu
  state := .RUNNING
  killed := killed
  isInit := isInit
  ofile := files
  cwd := some ip
  ref := ref
  stack := [.exit .start]
  again := 0
  closed := []
  puts := []

end ExitState

/-- **Each resource is released once**: `exit` is not entered again, no reference is dropped twice,
and when the process is a zombie, the references of all its files and of its current directory
have been dropped. -/
def ReleasedOnce (files : Fd → Option Fid) (ip : Slot) (s : ExitState) : Prop :=
  s.again = 0 ∧ s.closed.Nodup ∧ s.puts.length ≤ 1 ∧
    (s.state = .ZOMBIE → (∀ fd f, (fd, f) ∈ s.closed ↔ files fd = some f) ∧ s.puts = [ip])

/-- The step is not a test of `do_timer` that finds the process killed. -/
def NotKilled (s : ExitState) : ExitEvent → Prop
  | .act =>
      ∀ pc frs, s.stack = .timer pc :: frs → pc = .killed ∨ pc = .killedAgain → s.killed = false
  | _ => True

/-! ## The invariant -/

/-- The descriptors that a call of `exit` has still to close. -/
def ExitPc.todo : ExitPc → List Fd
  | .start => List.finRange NOFILE
  | .files fds => fds
  | .close fd _ fds => fd :: fds
  | .closing _ fds | .clear _ fds => fds
  | _ => []

/-- A call of `exit` has called `iput` for the current directory. -/
def ExitPc.put : ExitPc → Bool
  | .putting | .clearCwd | .zombie => true
  | _ => false

/-- The references held in the given descriptors. -/
def held (files : Fd → Option Fid) (fds : List Fd) : List (Fd × Fid) :=
  fds.filterMap fun fd => (files fd).map fun f => (fd, f)

variable {files : Fd → Option Fid}

theorem mem_held {fds : List Fd} {fd : Fd} {f : Fid} :
    (fd, f) ∈ held files fds ↔ fd ∈ fds ∧ files fd = some f := by
  simp [held]

theorem held_append (files : Fd → Option Fid) (fds fds' : List Fd) :
    held files (fds ++ fds') = held files fds ++ held files fds' :=
  List.filterMap_append ..

theorem held_singleton_some {fd : Fd} {f : Fid} (h : files fd = some f) :
    held files [fd] = [(fd, f)] := by
  simp [held, h]

theorem held_singleton_none {fd : Fd} (h : files fd = none) : held files [fd] = [] := by
  simp [held, h]

theorem nodup_held {fds : List Fd} (h : fds.Nodup) : (held files fds).Nodup := by
  refine List.Nodup.filterMap (fun fd fd' x hx hx' => ?_) h
  obtain ⟨f, -, rfl⟩ := Option.map_eq_some_iff.mp hx
  obtain ⟨f', -, heq⟩ := Option.map_eq_some_iff.mp hx'
  exact (congrArg Prod.fst heq).symm

/-- What a call of `exit` has done when it is at `pc`. -/
structure At (files : Fd → Option Fid) (ip : Slot) (s : ExitState) (pc : ExitPc) : Prop where
  closed : ∃ fds, fds ++ pc.todo = List.finRange NOFILE ∧ s.closed = held files fds
  ofile : ∀ fd ∈ pc.todo, s.ofile fd = files fd
  file : ∀ fd f fds, pc = .close fd f fds → files fd = some f
  /-- The slot of a file that has been closed is not looked at again. -/
  cleared : ∀ fd fds, pc = .closing fd fds ∨ pc = .clear fd fds → fd ∉ fds
  cwd : pc.put = false → s.cwd = some ip ∧ s.puts = []
  puts : pc.put = true → s.puts = [ip]

/-- **The invariant**: there is one call of `exit`, with calls of `do_timer` on top of it. -/
structure ExitInv (files : Fd → Option Fid) (ip : Slot) (s : ExitState) : Prop where
  again : s.again = 0
  stack : ∃ (ts : List TimerPc) (pc : ExitPc), s.stack = ts.map Frame.timer ++ [.exit pc] ∧
    At files ip s pc ∧ (s.state = .ZOMBIE → pc = .zombie)

section

variable {files : Fd → Option Fid} {ip : Slot} {s t : ExitState}

theorem ExitInv.releasedOnce (h : ExitInv files ip s) : ReleasedOnce files ip s := by
  obtain ⟨hagain, ts, pc, -, hat, hzombie⟩ := h
  obtain ⟨fds, hfds, hclosed⟩ := hat.closed
  refine ⟨hagain, ?_, ?_, fun hst => ?_⟩
  · rw [hclosed]
    refine nodup_held (List.Nodup.sublist ?_ (List.nodup_finRange NOFILE))
    rw [← hfds]
    exact List.sublist_append_left ..
  · cases hput : pc.put with
    | false =>
        rw [(hat.cwd hput).2]
        exact Nat.zero_le _
    | true =>
        rw [hat.puts hput]
        exact le_refl _
  · obtain rfl := hzombie hst
    refine ⟨fun fd f => ?_, hat.puts rfl⟩
    have hall : fds = List.finRange NOFILE := (List.append_nil fds).symm.trans hfds
    rw [hclosed, mem_held, hall]
    exact ⟨fun hf => hf.2, fun hf => ⟨List.mem_finRange fd, hf⟩⟩

theorem exitInv_start (cpu : Cpu) (killed isInit : Bool) (ref : Fid → Nat) :
    ExitInv files ip (.start cpu killed isInit files ip ref) :=
  ⟨rfl, [], .start, rfl, ⟨⟨[], rfl, rfl⟩, fun _ _ => rfl, nofun, nofun, fun _ => ⟨rfl, rfl⟩, nofun⟩,
    nofun⟩

/-- The invariant looks at the descriptors, the stack and what has been dropped. -/
theorem At.congr {pc : ExitPc} (h : At files ip s pc) (hofile : t.ofile = s.ofile)
    (hcwd : t.cwd = s.cwd) (hclosed : t.closed = s.closed) (hputs : t.puts = s.puts) :
    At files ip t pc := by
  obtain ⟨h₁, h₂, h₃, h₄, h₅, h₆⟩ := h
  refine ⟨?_, ?_, h₃, h₄, ?_, ?_⟩
  · rwa [hclosed]
  · rwa [hofile]
  · rwa [hcwd, hputs]
  · rwa [hputs]

theorem locked_eq_some {u : ExitState} (h : s.locked t = some u) : ∃ c, u = { t with cpu := c } := by
  obtain ⟨c, -, rfl⟩ := Option.map_eq_some_iff.mp h
  exact ⟨c, rfl⟩

/-- The descriptors are gone through once. -/
theorem notMem_of_append {fds fds' : List Fd} {fd : Fd}
    (h : fds ++ fd :: fds' = List.finRange NOFILE) : fd ∉ fds' := by
  have hnodup := List.nodup_finRange NOFILE
  rw [← h] at hnodup
  exact (List.nodup_cons.mp hnodup.of_append_right).1

theorem append_cons_eq (fds : List Fd) (fd : Fd) (fds' : List Fd) :
    (fds ++ [fd]) ++ fds' = fds ++ fd :: fds' := by
  rw [List.append_assoc, List.singleton_append]

/-- **A step of `exit`.** -/
theorem At.exitAct {pc : ExitPc} (h : At files ip s pc) (hstep : s.exitAct [] pc = some t) :
    t.again = s.again ∧ ∃ pc', t.stack = [.exit pc'] ∧ At files ip t pc' ∧
      (t.state = s.state ∨ pc' = .zombie) := by
  obtain ⟨⟨fds₀, hfds, hclosed⟩, hofile, hfile, hcleared, hcwd, hputs⟩ := h
  cases pc with
  | start =>
      rw [ExitState.exitAct] at hstep
      split at hstep
      · cases hstep
      · obtain rfl := Option.some.inj hstep
        exact ⟨rfl, _, rfl, ⟨⟨fds₀, hfds, hclosed⟩, hofile, nofun, nofun, hcwd, hputs⟩, .inl rfl⟩
  | files fds =>
      cases fds with
      | nil =>
          obtain rfl := Option.some.inj hstep
          exact ⟨rfl, _, rfl, ⟨⟨fds₀, hfds, hclosed⟩, nofun, nofun, nofun, hcwd, hputs⟩, .inl rfl⟩
      | cons fd fds =>
          have hfd := hofile fd (.head _)
          rw [ExitState.exitAct] at hstep
          split at hstep
          · rename_i f hf
            obtain rfl := Option.some.inj hstep
            refine ⟨rfl, _, rfl, ⟨⟨fds₀, hfds, hclosed⟩, hofile, ?_, nofun, hcwd, hputs⟩, .inl rfl⟩
            rintro fd' f' fds' ⟨⟩
            exact hfd.symm.trans hf
          · rename_i hf
            obtain rfl := Option.some.inj hstep
            refine ⟨rfl, _, rfl, ⟨⟨fds₀ ++ [fd], ?_, ?_⟩, ?_, nofun, nofun, hcwd, hputs⟩, .inl rfl⟩
            · exact (append_cons_eq ..).trans hfds
            · rw [held_append, held_singleton_none (hfd.symm.trans hf), List.append_nil]
              exact hclosed
            · exact fun fd' hfd' => hofile fd' (.tail _ hfd')
  | close fd f fds =>
      rw [ExitState.exitAct] at hstep
      split at hstep
      · cases hstep
      · obtain ⟨c, rfl⟩ := locked_eq_some hstep
        have hnext : ∀ pc', pc' = ExitPc.clear fd fds ∨ pc' = ExitPc.closing fd fds → ∀ u : ExitState,
            u.closed = s.closed ++ [(fd, f)] → u.ofile = s.ofile → u.cwd = s.cwd →
            u.puts = s.puts → At files ip u pc' := by
          rintro pc' hpc u hu₁ hu₂ hu₃ hu₄
          have htodo : pc'.todo = fds := by rcases hpc with rfl | rfl <;> rfl
          have hput : pc'.put = false := by rcases hpc with rfl | rfl <;> rfl
          refine ⟨⟨fds₀ ++ [fd], ?_, ?_⟩, ?_, ?_, ?_, ?_, ?_⟩
          · rw [htodo]
            exact (append_cons_eq ..).trans hfds
          · rw [hu₁, held_append, held_singleton_some (hfile fd f fds rfl), hclosed]
          · rw [htodo, hu₂]
            exact fun fd' hfd' => hofile fd' (.tail _ hfd')
          · rintro _ _ _ rfl
            rcases hpc with h | h <;> cases h
          · rintro fd' fds' heq
            obtain ⟨rfl, rfl⟩ : fd = fd' ∧ fds = fds' := by
              rcases hpc with rfl | rfl <;> rcases heq with h | h <;> cases h <;> exact ⟨rfl, rfl⟩
            exact notMem_of_append hfds
          · rw [hu₃, hu₄]
            exact fun _ => hcwd rfl
          · rw [hput]
            exact nofun
        refine ⟨rfl, _, rfl, hnext _ ?_ _ rfl rfl rfl rfl, .inl rfl⟩
        split
        · exact .inl rfl
        · exact .inr rfl
  | closing fd fds =>
      obtain rfl := Option.some.inj hstep
      refine ⟨rfl, _, rfl, ⟨⟨fds₀, hfds, hclosed⟩, hofile, nofun, ?_, hcwd, hputs⟩, .inl rfl⟩
      rintro fd' fds' (heq | heq)
      · cases heq
      · obtain ⟨rfl, rfl⟩ := ExitPc.clear.inj heq
        exact hcleared fd fds (.inl rfl)
  | clear fd fds =>
      obtain rfl := Option.some.inj hstep
      refine ⟨rfl, _, rfl, ⟨⟨fds₀, hfds, hclosed⟩, fun fd' hfd' => ?_, nofun, nofun, hcwd, hputs⟩,
        .inl rfl⟩
      have hne : fd' ≠ fd := by
        rintro rfl
        exact hcleared _ _ (.inr rfl) hfd'
      show Function.update s.ofile fd none fd' = _
      rw [Function.update_of_ne hne]
      exact hofile fd' hfd'
  | putCwd =>
      rw [ExitState.exitAct, (hcwd rfl).1, Option.bind_some] at hstep
      obtain ⟨c, rfl⟩ := locked_eq_some hstep
      refine ⟨rfl, _, rfl, ⟨⟨fds₀, hfds, hclosed⟩, nofun, nofun, nofun, nofun, fun _ => ?_⟩, .inl rfl⟩
      show s.puts ++ [ip] = [ip]
      rw [(hcwd rfl).2, List.nil_append]
  | putting =>
      obtain rfl := Option.some.inj hstep
      exact ⟨rfl, _, rfl, ⟨⟨fds₀, hfds, hclosed⟩, nofun, nofun, nofun, nofun, fun _ => hputs rfl⟩,
        .inl rfl⟩
  | clearCwd =>
      obtain rfl := Option.some.inj hstep
      exact ⟨rfl, _, rfl, ⟨⟨fds₀, hfds, hclosed⟩, nofun, nofun, nofun, nofun, fun _ => hputs rfl⟩,
        .inl rfl⟩
  | zombie =>
      obtain rfl := Option.some.inj hstep
      exact ⟨rfl, _, rfl, ⟨⟨fds₀, hfds, hclosed⟩, nofun, nofun, nofun, nofun, fun _ => hputs rfl⟩,
        .inr rfl⟩

/-- **A step of `do_timer`** that does not find the process killed. -/
theorem ExitInv.timerAct {tpc : TimerPc} {frs : List Frame} (h : ExitInv files ip s)
    (hstack : s.stack = .timer tpc :: frs) (hrun : s.state = .RUNNING)
    (hkilled : tpc = .killed ∨ tpc = .killedAgain → s.killed = false)
    (hstep : s.timerAct frs tpc = some t) : ExitInv files ip t := by
  obtain ⟨hagain, ts, pc, hst, hat, -⟩ := h
  obtain ⟨ts, rfl, hfrs⟩ : ∃ ts', ts = tpc :: ts' ∧ frs = ts'.map Frame.timer ++ [.exit pc] := by
    cases ts with
    | nil => cases hstack.symm.trans hst
    | cons tpc' ts =>
        obtain ⟨hhead, htail⟩ := List.cons.inj (hstack.symm.trans hst)
        exact ⟨ts, by rw [Frame.timer.inj hhead], htail⟩
  have hgoto : ∀ (tpc' : TimerPc) (u : ExitState), u.stack = .timer tpc' :: frs → u.again = s.again →
      u.ofile = s.ofile → u.cwd = s.cwd → u.closed = s.closed → u.puts = s.puts →
      u.state ≠ .ZOMBIE → ExitInv files ip u := by
    intro tpc' u hu₁ hu₂ hu₃ hu₄ hu₅ hu₆ hu₇
    refine ⟨hu₂.trans hagain, tpc' :: ts, pc, ?_, hat.congr hu₃ hu₄ hu₅ hu₆, fun hz => absurd hz hu₇⟩
    rw [hu₁, hfrs]
    rfl
  have hne : s.state ≠ .ZOMBIE := by
    rw [hrun]
    exact ProcState.noConfusion
  cases tpc with
  | ticks =>
      obtain ⟨c, rfl⟩ := locked_eq_some hstep
      exact hgoto .killed _ rfl rfl rfl rfl rfl rfl hne
  | killed =>
      rw [ExitState.timerAct, hkilled (.inl rfl)] at hstep
      obtain rfl := Option.some.inj hstep
      exact hgoto .running _ rfl rfl rfl rfl rfl rfl hne
  | running =>
      obtain rfl := Option.some.inj hstep
      exact hgoto .killedAgain _ rfl rfl rfl rfl rfl rfl ProcState.noConfusion
  | killedAgain =>
      rw [ExitState.timerAct, hkilled (.inr rfl)] at hstep
      obtain rfl := Option.some.inj hstep
      exact hgoto .ret _ rfl rfl rfl rfl rfl rfl hne
  | ret =>
      obtain rfl := Option.some.inj hstep
      exact ⟨hagain, ts, pc, hfrs, hat.congr rfl rfl rfl rfl, fun hz => absurd hz hne⟩

/-- A step that changes neither the calls nor what they have done. -/
theorem ExitInv.congr (h : ExitInv files ip s) (hagain : t.again = s.again)
    (hstack : t.stack = s.stack) (hofile : t.ofile = s.ofile) (hcwd : t.cwd = s.cwd)
    (hclosed : t.closed = s.closed) (hputs : t.puts = s.puts)
    (hstate : t.state = .ZOMBIE → s.state = .ZOMBIE) : ExitInv files ip t := by
  obtain ⟨hagain', ts, pc, hst, hat, hz⟩ := h
  exact ⟨hagain.trans hagain', ts, pc, hstack.trans hst, hat.congr hofile hcwd hclosed hputs,
    fun hzombie => hz (hstate hzombie)⟩

/-- The next step of the process keeps the invariant. -/
theorem ExitInv.act (h : ExitInv files ip s) (hrun : s.state = .RUNNING)
    (hok : NotKilled s .act) (hstep : s.act = some t) : ExitInv files ip t := by
  unfold ExitState.act at hstep
  split at hstep
  · rename_i pc frs hstack
    obtain ⟨hagain, ts, pc', hst, hat, hz⟩ := h
    cases ts with
    | nil =>
        obtain ⟨hhead, rfl⟩ := List.cons.inj (hstack.symm.trans hst)
        obtain rfl := Frame.exit.inj hhead
        obtain ⟨hagain', pc', hst', hat', hstate⟩ := hat.exitAct hstep
        refine ⟨hagain'.trans hagain, [], pc', hst', hat', fun hzombie => ?_⟩
        rcases hstate with heq | heq
        · rw [heq, hrun] at hzombie
          cases hzombie
        · exact heq
    | cons tpc ts => cases (List.cons.inj (hstack.symm.trans hst)).1
  · rename_i tpc frs hstack
    exact h.timerAct hstack hrun (hok tpc frs hstack) hstep
  · cases hstep

/-- **Every step that does not find the process killed keeps the invariant.** -/
theorem ExitInv.step {e : ExitEvent} (h : ExitInv files ip s) (hok : NotKilled s e)
    (hstep : s.step e = some t) : ExitInv files ip t := by
  cases e with
  | act =>
      rw [ExitState.step] at hstep
      split at hstep
      · rename_i hrun
        exact h.act hrun hok hstep
      · cases hstep
  | inner =>
      rw [ExitState.step] at hstep
      split at hstep
      · obtain ⟨c, rfl⟩ := locked_eq_some hstep
        exact h.congr rfl rfl rfl rfl rfl rfl id
      · cases hstep
  | sleep =>
      rw [ExitState.step] at hstep
      split at hstep
      · obtain rfl := Option.some.inj hstep
        exact h.congr rfl rfl rfl rfl rfl rfl nofun
      · cases hstep
  | wake =>
      rw [ExitState.step] at hstep
      split at hstep
      · obtain rfl := Option.some.inj hstep
        exact h.congr rfl rfl rfl rfl rfl rfl nofun
      · cases hstep
  | sched =>
      rw [ExitState.step] at hstep
      split at hstep
      · obtain ⟨c, -, rfl⟩ := Option.map_eq_some_iff.mp hstep
        exact h.congr rfl rfl rfl rfl rfl rfl nofun
      · cases hstep
  | timer =>
      rw [ExitState.step] at hstep
      split at hstep
      · obtain rfl := Option.some.inj hstep
        obtain ⟨hagain, ts, pc, hst, hat, hz⟩ := h
        refine ⟨hagain, .ticks :: ts, pc, ?_, hat.congr rfl rfl rfl rfl, hz⟩
        show Frame.timer .ticks :: s.stack = _
        rw [hst]
        rfl
      · cases hstep
  | kill =>
      rw [ExitState.step] at hstep
      split at hstep
      · cases hstep
      · obtain rfl := Option.some.inj hstep
        exact h.congr rfl rfl rfl rfl rfl rfl id
  | others f n =>
      rw [ExitState.step] at hstep
      split at hstep
      · cases hstep
      · obtain rfl := Option.some.inj hstep
        exact h.congr rfl rfl rfl rfl rfl rfl id

/-- A test of `do_timer` that finds the process killed enters `exit` again. -/
theorem again_of_killed {e : ExitEvent} (hnot : ¬ NotKilled s e) (hstep : s.step e = some t) :
    0 < t.again := by
  cases e with
  | act =>
      rw [ExitState.step] at hstep
      split at hstep
      · simp only [NotKilled, not_forall, Bool.not_eq_false] at hnot
        obtain ⟨pc, frs, hstack, hpc, hkilled⟩ := hnot
        rw [ExitState.act, hstack] at hstep
        rcases hpc with rfl | rfl <;>
          simp only [ExitState.timerAct, hkilled, if_true, Option.some.injEq] at hstep <;>
          subst hstep <;> exact Nat.succ_pos _
      · cases hstep
  | _ => exact absurd trivial hnot

end

/-- A run of a process that calls `exit`. -/
abbrev ExitRun (s₀ : ExitState) (tr : List (ExitState × ExitEvent)) (s : ExitState) : Prop :=
  Exec (StepOf ExitState.step) s₀ tr s

/-- **Each resource is released once exactly when no timer interrupt in `exit` finds the process
killed.** -/
theorem releasedOnce_iff {cpu : Cpu} {killed isInit : Bool} {files : Fd → Option Fid} {ip : Slot}
    {ref : Fid → Nat} {tr : List (ExitState × ExitEvent)} {s : ExitState}
    (hrun : ExitRun (.start cpu killed isInit files ip ref) tr s) :
    (∀ x ∈ visited tr s, ReleasedOnce files ip x) ↔ ∀ p ∈ tr, NotKilled p.1 p.2 := by
  refine Exec.forall_visited_iff (P := ExitInv files ip) (fun t ht => ht.releasedOnce) ?_ ?_
    (exitInv_start ..) hrun
  · exact fun t e u ht hok hstep => ht.step hok hstep
  · intro t e u hnot hstep hgood
    exact absurd hgood.1 (again_of_killed hnot hstep).ne'

/-- A processor with interrupts enabled. -/
def enabled : Cpu := ⟨0x40000000#32, 0, 0#32⟩

/-- One open file. -/
def oneFile : Fd → Option Fid := fun fd => if fd = ⟨3, by decide⟩ then some ⟨5, by decide⟩ else none

/-- A process with one open file, which other processes have open as well, calls `exit`. -/
def oneFileExit (killed : Bool) : ExitState :=
  .start enabled killed false oneFile ⟨0, zero_lt_NINODE⟩ fun _ => 3

/-- The steps of `exit` up to the assignment to the slot of the open file. -/
def upToClear : List ExitEvent := List.replicate 6 .act

/-- A timer interrupt after the call of `fileclose`; the process yields, goes on and becomes a
zombie. -/
def timerAtClear : List ExitEvent :=
  upToClear ++ [.timer, .act, .act, .act, .sched, .act, .act] ++ List.replicate 18 .act

/-- A run with a timer interrupt in which each resource is released once. -/
theorem releasedOnce_iff_timer :
    ∃ tr s, ExitRun (oneFileExit false) tr s ∧ s.state = .ZOMBIE ∧
      ∀ x ∈ visited tr s, ReleasedOnce oneFile ⟨0, by decide⟩ x := by
  obtain ⟨s, hs⟩ : ∃ s, runAll ExitState.step (oneFileExit false) timerAtClear = some s :=
    Option.isSome_iff_exists.mp (by decide +kernel)
  have hstate : (runAll ExitState.step (oneFileExit false) timerAtClear).map ExitState.state =
      some .ZOMBIE := by decide +kernel
  rw [hs] at hstate
  have halive : (traceAll ExitState.step (oneFileExit false) timerAtClear).all
      (fun p => !p.1.killed) = true := by decide +kernel
  have hrun := exec_of_runAll ExitState.step hs
  refine ⟨_, s, hrun, Option.some.inj hstate, (releasedOnce_iff hrun).mpr ?_⟩
  rintro ⟨t, e⟩ hp
  have hkilled : t.killed = false := by simpa using List.all_eq_true.mp halive _ hp
  cases e with
  | act => exact fun _ _ _ _ => hkilled
  | _ => trivial

/-- A timer interrupt after the call of `fileclose` for a process that has been killed. -/
def killedAtClear : List ExitEvent := upToClear ++ [.timer, .act, .act] ++ List.replicate 24 .act

/-- **A file is closed twice**: `do_timer` enters `exit` again between `fileclose` and the
assignment to the slot. -/
theorem closed_twice :
    ∃ tr s, ExitRun (oneFileExit true) tr s ∧ s.state = .ZOMBIE ∧ s.again = 1 ∧
      s.closed = [(⟨3, by decide⟩, ⟨5, by decide⟩), (⟨3, by decide⟩, ⟨5, by decide⟩)] ∧
      ¬ ReleasedOnce oneFile ⟨0, by decide⟩ s := by
  obtain ⟨s, hs⟩ : ∃ s, runAll ExitState.step (oneFileExit true) killedAtClear = some s :=
    Option.isSome_iff_exists.mp (by decide +kernel)
  have hend : (runAll ExitState.step (oneFileExit true) killedAtClear).map
      (fun s => (s.state, s.again, s.closed)) =
        some (.ZOMBIE, 1, [(⟨3, by decide⟩, ⟨5, by decide⟩), (⟨3, by decide⟩, ⟨5, by decide⟩)]) := by
    decide +kernel
  rw [hs, Option.map_some] at hend
  simp only [Option.some.injEq, Prod.mk.injEq] at hend
  obtain ⟨hstate, hagain, hclosed⟩ := hend
  refine ⟨_, s, exec_of_runAll ExitState.step hs, hstate, hagain, hclosed, fun hgood => ?_⟩
  rw [hgood.1] at hagain
  cases hagain

end Xv6.Exit

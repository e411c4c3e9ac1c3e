import Xv6.Sh4a.Swtch
import Xv6.Lib.Exec

/-! # Preemption of a user process

A process is interrupted in user mode, its handler saves a trapframe, and before the handler returns
the process and the scheduler may switch back and forth any number of times. The C code in between
is not modelled instruction by instruction: a `KStep` lets it change everything except what compiled
kernel code leaves alone (the bank of `R0`–`R7` that is not selected, `SR.MD` and `SR.RB`, and the
stack words of whoever is switched out).

The trapframe brings back every user register but `R0`–`R7`, which only live in bank 0. The
scheduler works in bank 0 (`SR_INIT` has `RB = 0`) while processes in the kernel work in bank 1, so
`swtch` saves under one choice of bank and loads under the other: `Run.bank0_eq` shows that a
resumed process finds in bank 0 what bank 1 held when it called `swtch`. -/

namespace Xv6.Sh4a

open Lib

/-- The registers a user program sees. -/
@[ext]
structure UserRegs where
  low : Fin 8 → Word
  high : Fin 7 → Word
  r15 : Word
  pr : Word
  mach : Word
  macl : Word
  gbr : Word
  pc : Word
  sr : Word

/-- The registers of a user program: user mode uses bank 0. -/
def userRegs (m : Machine) : UserRegs :=
  ⟨m.bank0, m.high, m.r15, m.pr, m.mach, m.macl, m.gbr, m.pc, m.sr⟩

/-- `SR_INIT` of `entry.S`: `MD = BL = 1` and `RB = 0`. -/
def srInit : Word := 0x50000000#32

/-- Two values of `SR` choose the same bank. -/
def SameBank (x y : Word) : Prop := x.getLsbD 30 = y.getLsbD 30 ∧ x.getLsbD 29 = y.getLsbD 29

/-! ## The return from the handler -/

/-- The words that the restoring half loads before it skips the `sgr` field. -/
theorem trapframe_firstHalf_plain : ∀ l ∈ trapframeRegs.take 17, l ≠ .r15 ∧ l ≠ .sr := by decide

/-- The restoring half in two runs of pops. -/
theorem execAll_intrRestore (m : Machine) :
    execAll m intrRestore
      = execAll (execAll (exec (execAll m ((trapframeRegs.take 17).map (.pop .r15))) (.addi 4 .r15))
          ([Loc.gbr, .mach, .macl, .pr].map (.pop .r15))) [.addi (-20) .r15, .load 0 .r15 .r15] := by
  have hcode : intrRestore = (trapframeRegs.take 17).map (.pop .r15) ++ ([.addi 4 .r15]
      ++ ([Loc.gbr, .mach, .macl, .pr].map (.pop .r15)
        ++ [.addi (-20) .r15, .load 0 .r15 .r15])) := rfl
  rw [hcode, execAll_append, execAll_append, execAll_append]
  rfl

theorem exec_addi_r15 (m : Machine) (w : Word) :
    exec m (.addi w .r15) = m.set .r15 (m.r15 + w) := rfl

/-- The last two instructions of the restoring half fetch the user's stack pointer. -/
theorem execAll_restore_r15 (m : Machine) (w disp : Word) :
    execAll m [.addi w .r15, .load disp .r15 .r15]
      = { m with r15 := m.mem (m.r15 + w + disp) } := rfl

/-- **What the return from the handler restores**: the trapframe's words, and bank 0 as it is. -/
theorem userRegs_intrReturn (m : Machine) (hsel : m.sel = true) :
    userRegs (intrReturn m) =
      ⟨m.bank0, fun n => m.mem (m.r15 + BitVec.ofNat 32 (4 * (8 + n.val))),
        m.mem (m.r15 + 68#32), m.mem (m.r15 + 84#32), m.mem (m.r15 + 76#32),
        m.mem (m.r15 + 80#32), m.mem (m.r15 + 72#32), m.mem (m.r15 + 60#32),
        m.mem (m.r15 + 64#32)⟩ := by
  -- the three states on the way are kept opaque: unfolding them copies the machine at every pop
  obtain ⟨a, ha⟩ : ∃ a, a = execAll m ((trapframeRegs.take 17).map (.pop .r15)) := ⟨_, rfl⟩
  obtain ⟨b, hb⟩ : ∃ b, b = exec a (.addi 4 .r15) := ⟨_, rfl⟩
  obtain ⟨c, hc⟩ : ∃ c, c = execAll b ([Loc.gbr, .mach, .macl, .pr].map (.pop .r15)) := ⟨_, rfl⟩
  have hplain₂ : ∀ l ∈ [Loc.gbr, .mach, .macl, .pr], l ≠ .r15 ∧ l ≠ .sr := by decide
  obtain ⟨ha15, hamem⟩ := execAll_pop_r15 (trapframeRegs.take 17) m
    fun l hl => (trapframe_firstHalf_plain l hl).1
  obtain ⟨hc15, hcmem⟩ := execAll_pop_r15 [Loc.gbr, .mach, .macl, .pr] b
    fun l hl => (hplain₂ l hl).1
  have hb15 : b.r15 = m.r15 + 72#32 := by
    rw [hb, exec_addi_r15]
    show a.r15 + 4 = _
    rw [ha, ha15]
    simp [trapframeRegs]
    bv_omega
  have hbmem : b.mem = m.mem := by
    rw [hb, exec_addi_r15]
    exact (congrArg Machine.mem ha).trans hamem
  have hend : execAll m intrRestore = { c with r15 := c.mem (c.r15 + (-20) + 0) } := by
    rw [execAll_intrRestore, ← ha, ← hb, ← hc, execAll_restore_r15]
  have hr15 : c.r15 + (-20) + 0 = m.r15 + 68#32 := by
    rw [hc, hc15, hb15]
    simp
    bv_omega
  -- a register loaded by the first run of pops is kept by the rest
  have hfirst {i : Nat} {l : Loc} (hi : (trapframeRegs.take 17)[i]? = some l)
      (hl : l ∉ [Loc.gbr, .mach, .macl, .pr]) :
      c.get l = m.mem (m.r15 + BitVec.ofNat 32 (4 * i)) := by
    have hne : l ≠ .r15 := (trapframe_firstHalf_plain l (List.mem_of_getElem? hi)).1
    rw [hc, get_execAll_pop_of_notMem _ _ hplain₂ hne hl, hb, exec_addi_r15,
      Machine.get_set_of_ne _ _ (by simp) hne, ha,
      get_execAll_pop _ _ trapframe_firstHalf_plain (by decide) hi]
  have hsecond {i : Nat} {l : Loc} (hi : [Loc.gbr, .mach, .macl, .pr][i]? = some l) :
      c.get l = m.mem (m.r15 + 72#32 + BitVec.ofNat 32 (4 * i)) := by
    rw [hc, get_execAll_pop _ _ hplain₂ (by decide) hi, hbmem, hb15]
  have hselc : c.sel = true := by
    rw [hc, sel_execAll_pop _ _ hplain₂, hb,
      exec_addi_r15,
      Machine.sel_set _ _ (by simp), ha, sel_execAll_pop _ _ trapframe_firstHalf_plain, hsel]
  have hbank (n : Fin 8) : c.bank0 n = m.bank0 n := by
    have hget : c.get (.bank n) = m.get (.bank n) := by
      rw [hc, get_execAll_pop_of_notMem _ _ hplain₂ (by simp) (by simp), hb,
        exec_addi_r15,
        Machine.get_set_of_ne _ _ (by simp) (by simp), ha,
        get_execAll_pop_of_notMem _ _ trapframe_firstHalf_plain (by simp) (by revert n; decide)]
    rwa [Machine.get, Machine.get, hselc, hsel, if_pos rfl, if_pos rfl] at hget
  have hhigh (n : Fin 7) : c.high n = m.mem (m.r15 + BitVec.ofNat 32 (4 * (8 + n.val))) :=
    hfirst (l := .high n) (by revert n; decide) (by simp)
  have hspc : c.spc = m.mem (m.r15 + 60#32) := hfirst (i := 15) (l := .spc) rfl (by simp)
  have hssr : c.ssr = m.mem (m.r15 + 64#32) := hfirst (i := 16) (l := .ssr) rfl (by simp)
  have hgbr : c.gbr = m.mem (m.r15 + 72#32) := by
    have := hsecond (i := 0) (l := .gbr) rfl
    rwa [show m.r15 + 72#32 + BitVec.ofNat 32 (4 * 0) = m.r15 + 72#32 by bv_omega] at this
  have hmach : c.mach = m.mem (m.r15 + 76#32) := by
    have := hsecond (i := 1) (l := .mach) rfl
    rwa [show m.r15 + 72#32 + BitVec.ofNat 32 (4 * 1) = m.r15 + 76#32 by bv_omega] at this
  have hmacl : c.macl = m.mem (m.r15 + 80#32) := by
    have := hsecond (i := 2) (l := .macl) rfl
    rwa [show m.r15 + 72#32 + BitVec.ofNat 32 (4 * 2) = m.r15 + 80#32 by bv_omega] at this
  have hpr : c.pr = m.mem (m.r15 + 84#32) := by
    have := hsecond (i := 3) (l := .pr) rfl
    rwa [show m.r15 + 72#32 + BitVec.ofNat 32 (4 * 3) = m.r15 + 84#32 by bv_omega] at this
  rw [intrReturn, hend, hr15]
  have hcm : c.mem = m.mem := (congrArg Machine.mem hc).trans (hcmem.trans hbmem)
  simp only [userRegs, rte, funext hbank, funext hhigh, hcm, hspc, hssr, hgbr, hmach, hmacl, hpr]

/-! ## The kernel between the interrupt and the return -/

/-- Who runs in the kernel. -/
inductive Who
  /-- The interrupted process. -/
  | proc
  /-- The scheduler. -/
  | sched
  /-- Any other process. -/
  | other
  deriving DecidableEq

/-- A moment between the interrupt and the return: the machine, who runs on it, and where the
contexts of the process and of the scheduler were last saved. `last` is what the kernel's
`R0`–`R7` held when the process last called `swtch`. -/
structure Conf where
  m : Machine
  who : Who
  procCtx : Word
  schedCtx : Word
  last : Option (Fin 8 → Word)

/-- The `n` words from `a` on are the same in both memories. -/
def Keeps (f g : Word → Word) (a : Word) (n : Nat) : Prop :=
  ∀ i < n, g (a + BitVec.ofNat 32 (4 * i)) = f (a + BitVec.ofNat 32 (4 * i))

/-- **One step of the kernel**, with the trapframe of the interrupted process at `tf`. -/
inductive KStep (tf : Word) : Conf → Conf → Prop
  /-- Kernel code of the process: it works in bank 1 and leaves bank 0, its trapframe and the
  scheduler's saved context alone. -/
  | procCode (c : Conf) (m : Machine) (hwho : c.who = .proc) (hbank : m.bank0 = c.m.bank0)
      (hsel : m.sel = c.m.sel) (htf : Keeps c.m.mem m.mem tf 22)
      (hsched : Keeps c.m.mem m.mem c.schedCtx 31) : KStep tf c { c with m := m }
  /-- `swtch(&proc->context, cpu->scheduler)` called by the process. -/
  | procSwtch (c : Conf) (hwho : c.who = .proc) (hnew : c.m.get (.low 5) = c.schedCtx)
      (htf : Room c.m tf 22) (hsched : Room c.m c.schedCtx 31)
      (hctx : ∀ i < 31, contextAddr c.m + BitVec.ofNat 32 (4 * i) ≠ c.m.get (.low 4)) :
      KStep tf c
        { c with m := swtch c.m, who := .sched, procCtx := contextAddr c.m, last := some c.m.bank1 }
  /-- The scheduler's own code: it keeps the bank it was started on. -/
  | schedCode (c : Conf) (m : Machine) (hwho : c.who = .sched) (hsr : SameBank m.sr c.m.sr)
      (htf : Keeps c.m.mem m.mem tf 22) (hproc : Keeps c.m.mem m.mem c.procCtx 31) : KStep tf c { c with m := m }
  /-- `swtch(&cpu->scheduler, proc->context)` to the interrupted process. -/
  | schedToProc (c : Conf) (hwho : c.who = .sched) (hnew : c.m.get (.low 5) = c.procCtx)
      (htf : Room c.m tf 22) (hproc : Room c.m c.procCtx 31)
      (hctx : ∀ i < 31, contextAddr c.m + BitVec.ofNat 32 (4 * i) ≠ c.m.get (.low 4)) :
      KStep tf c { c with m := swtch c.m, who := .proc, schedCtx := contextAddr c.m }
  /-- `swtch(&cpu->scheduler, proc->context)` to another process. -/
  | schedToOther (c : Conf) (hwho : c.who = .sched) (htf : Room c.m tf 22)
      (hproc : Room c.m c.procCtx 31)
      (hctx : ∀ i < 31, contextAddr c.m + BitVec.ofNat 32 (4 * i) ≠ c.m.get (.low 4)) :
      KStep tf c { c with m := swtch c.m, who := .other, schedCtx := contextAddr c.m }
  /-- Anything another process does, in the kernel or in user mode. -/
  | otherCode (c : Conf) (m : Machine) (hwho : c.who = .other) (htf : Keeps c.m.mem m.mem tf 22)
      (hproc : Keeps c.m.mem m.mem c.procCtx 31) (hsched : Keeps c.m.mem m.mem c.schedCtx 31) :
      KStep tf c { c with m := m }
  /-- `swtch(&proc->context, cpu->scheduler)` called by another process. -/
  | otherSwtch (c : Conf) (hwho : c.who = .other) (hnew : c.m.get (.low 5) = c.schedCtx)
      (htf : Room c.m tf 22) (hproc : Room c.m c.procCtx 31) (hsched : Room c.m c.schedCtx 31) :
      KStep tf c { c with m := swtch c.m, who := .sched }

/-- The moment at which the handler of an interrupt calls its service routine; the scheduler's
context was saved at `schedCtx` when it switched to the process. -/
def start (procVar schedCtx : Word) (m : Machine) : Conf :=
  ⟨intrEntry procVar m, .proc, 0, schedCtx, none⟩

/-- A run of the kernel from the interrupt of a process in state `m` to a moment at which its
service routine has returned to `intr_entry`. -/
def Run (procVar schedCtx : Word) (m : Machine) (c : Conf) : Prop :=
  Relation.ReflTransGen (KStep (intrEntry procVar m).r15) (start procVar schedCtx m) c ∧
    c.who = .proc ∧ c.m.r15 = (intrEntry procVar m).r15

/-- The `sr` field of a saved context. -/
def savedSr (mem : Word → Word) (ctx : Word) : Word := mem (ctx + BitVec.ofNat 32 (4 * 29))

/-- **The invariant of the kernel's steps**, for a trapframe with words `frame` and user registers
`low` in bank 0 at the interrupt. -/
structure KInv (tf : Word) (frame : Nat → Word) (low : Fin 8 → Word) (c : Conf) : Prop where
  /-- The trapframe is untouched. -/
  frame_eq : ∀ i < 22, c.m.mem (tf + BitVec.ofNat 32 (4 * i)) = frame i
  /-- In the kernel the process works in bank 1, and bank 0 holds the user's registers until its
  first `swtch`. -/
  proc_run : c.who = .proc → c.m.sel = true ∧ c.m.bank0 = c.last.getD low
  /-- The scheduler works in bank 0. -/
  sched_run : c.who = .sched → SameBank c.m.sr srInit
  /-- While the scheduler is switched out its context says so. -/
  sched_out : c.who ≠ .sched → SameBank (savedSr c.m.mem c.schedCtx) srInit
  /-- While the process is switched out, the `r0`–`r7` fields of its context hold what bank 1 held
  when it called `swtch`, and it will work in bank 1 again. -/
  proc_out : c.who ≠ .proc → ∃ k, c.last = some k ∧
    (∀ n : Fin 8, c.m.mem (c.procCtx + BitVec.ofNat 32 (4 * n.val)) = k n) ∧
    (savedSr c.m.mem c.procCtx).getLsbD 30 = true ∧ (savedSr c.m.mem c.procCtx).getLsbD 29 = true

variable {m : Machine}

theorem sel_of_sameBank (h : SameBank m.sr srInit) : m.sel = false := by
  rw [Machine.sel, h.1, h.2]
  rfl

/-- The words of the context of a process that calls `swtch` while it works in bank 1. -/
theorem savedContext_of_sel (hsel : m.sel = true) :
    (∀ n : Fin 8, (savedContext m).getD n.val 0 = m.bank1 n) ∧ (savedContext m).getD 29 0 = m.sr := by
  refine ⟨fun n => ?_, rfl⟩
  have hidx : (savedContext m)[n.val]? = some (m.get (.low n)) := by
    rw [savedContext, List.getElem?_append_left (by simp [contextRegs]; omega), List.getElem?_map,
      contextRegs_low n, Option.map_some]
  rw [List.getD_eq_getElem?_getD, hidx, Option.getD_some, Machine.get, hsel, if_pos rfl]

section Step

variable {tf : Word} {frame : Nat → Word} {low : Fin 8 → Word} {c : Conf}

/-- A `swtch` leaves a range that it does not write as it is. -/
theorem swtch_mem_of_room {m : Machine} {a : Word} {n : Nat} (h : Room m a n) {i : Nat}
    (hi : i < n) :
    (swtch m).mem (a + BitVec.ofNat 32 (4 * i)) = m.mem (a + BitVec.ofNat 32 (4 * i)) := by
  rw [swtch_mem, swtchMem_of_room h hi]

/-- The new `SR` of a `swtch` to a context that it does not write. -/
theorem swtch_sr_of_room {m : Machine} {a : Word} (h : Room m a 31) (ha : m.get (.low 5) = a) :
    (swtch m).sr = savedSr m.mem a := by
  rw [swtch_sr, ha]
  exact swtchMem_of_room h (i := 29) (by omega)

/-- **Every step of the kernel preserves the invariant.** -/
theorem KInv.step {c' : Conf} (h : KInv tf frame low c) (hstep : KStep tf c c') :
    KInv tf frame low c' := by
  cases hstep with
  | procCode m hwho hbank hsel htf hsched =>
      obtain ⟨hs, hb⟩ := h.proc_run hwho
      refine ⟨fun i hi => (htf i hi).trans (h.frame_eq i hi), fun _ => ⟨hsel.trans hs, hbank.trans hb⟩,
        fun hw => ?_, fun hw => ?_, fun hw => absurd hwho hw⟩
      · rw [hwho] at hw; cases hw
      · rw [savedSr, hsched 29 (by omega)]
        exact h.sched_out hw
  | procSwtch hwho hnew htf hsched hctx =>
      obtain ⟨hs, -⟩ := h.proc_run hwho
      obtain ⟨hsaved, hsr⟩ := savedContext_of_sel hs
      have hsel : c.m.sr.getLsbD 30 = true ∧ c.m.sr.getLsbD 29 = true := by
        simpa [Machine.sel] using hs
      refine ⟨fun i hi => (swtch_mem_of_room htf hi).trans (h.frame_eq i hi), fun hw => (by cases hw),
        fun _ => ?_, fun hw => absurd rfl hw, fun _ => ⟨c.m.bank1, rfl, fun n => ?_, ?_⟩⟩
      · rw [swtch_sr_of_room hsched hnew]
        exact h.sched_out (by rw [hwho]; decide)
      · rw [swtch_mem, swtchMem_saved _ (by omega) (hctx _ (by omega)), hsaved n]
      · rw [savedSr, swtch_mem, swtchMem_saved _ (by omega) (hctx _ (by omega)), hsr]
        exact hsel
  | schedCode m hwho hsr htf hproc =>
      obtain ⟨k, hk, hlow, hsr30, hsr29⟩ := h.proc_out (by rw [hwho]; decide)
      have hrun := h.sched_run hwho
      refine ⟨fun i hi => (htf i hi).trans (h.frame_eq i hi), fun hw => ?_,
        fun _ => ⟨hsr.1.trans hrun.1, hsr.2.trans hrun.2⟩, fun hw => absurd hwho hw,
        fun _ => ⟨k, hk, fun n => (hproc _ (by omega)).trans (hlow n), ?_⟩⟩
      · rw [hwho] at hw; cases hw
      · rw [savedSr, hproc 29 (by omega)]
        exact ⟨hsr30, hsr29⟩
  | schedToProc hwho hnew htf hproc hctx =>
      obtain ⟨k, hk, hlow, hsr30, hsr29⟩ := h.proc_out (by rw [hwho]; decide)
      have hsched := h.sched_run hwho
      have hsel : c.m.sel = false := sel_of_sameBank hsched
      refine ⟨fun i hi => (swtch_mem_of_room htf hi).trans (h.frame_eq i hi), fun _ => ⟨?_, ?_⟩,
        fun hw => (by cases hw), fun _ => ?_, fun hw => absurd rfl hw⟩
      · rw [Machine.sel, swtch_sr_of_room hproc hnew, hsr30, hsr29]
        rfl
      · funext n
        rw [hk, Option.getD_some, swtch_bank0, hsel, if_neg (by simp), hnew,
          swtchMem_of_room hproc (by omega), hlow n]
      · rw [savedSr, swtch_mem, swtchMem_saved _ (by omega) (hctx _ (by omega))]
        exact hsched
  | schedToOther hwho htf hproc hctx =>
      obtain ⟨k, hk, hlow, hsr30, hsr29⟩ := h.proc_out (by rw [hwho]; decide)
      have hsched := h.sched_run hwho
      refine ⟨fun i hi => (swtch_mem_of_room htf hi).trans (h.frame_eq i hi), fun hw => (by cases hw),
        fun hw => (by cases hw), fun _ => ?_, fun _ => ⟨k, hk, fun n => ?_, ?_⟩⟩
      · rw [savedSr, swtch_mem, swtchMem_saved _ (by omega) (hctx _ (by omega))]
        exact hsched
      · rw [swtch_mem_of_room hproc (by omega)]
        exact hlow n
      · rw [savedSr, swtch_mem_of_room hproc (by omega)]
        exact ⟨hsr30, hsr29⟩
  | otherCode m hwho htf hproc hsched =>
      obtain ⟨k, hk, hlow, hsr30, hsr29⟩ := h.proc_out (by rw [hwho]; decide)
      refine ⟨fun i hi => (htf i hi).trans (h.frame_eq i hi), fun hw => ?_, fun hw => ?_,
        fun hw => ?_, fun _ => ⟨k, hk, fun n => (hproc _ (by omega)).trans (hlow n), ?_⟩⟩
      · rw [hwho] at hw; cases hw
      · rw [hwho] at hw; cases hw
      · rw [savedSr, hsched 29 (by omega)]
        exact h.sched_out hw
      · rw [savedSr, hproc 29 (by omega)]
        exact ⟨hsr30, hsr29⟩
  | otherSwtch hwho hnew htf hproc hsched =>
      obtain ⟨k, hk, hlow, hsr30, hsr29⟩ := h.proc_out (by rw [hwho]; decide)
      refine ⟨fun i hi => (swtch_mem_of_room htf hi).trans (h.frame_eq i hi), fun hw => (by cases hw),
        fun _ => ?_, fun hw => absurd rfl hw, fun _ => ⟨k, hk, fun n => ?_, ?_⟩⟩
      · rw [swtch_sr_of_room hsched hnew]
        exact h.sched_out (by rw [hwho]; decide)
      · rw [swtch_mem_of_room hproc (by omega)]
        exact hlow n
      · rw [savedSr, swtch_mem_of_room hproc (by omega)]
        exact ⟨hsr30, hsr29⟩

end Step

/-- **The invariant along a whole run.** -/
theorem KInv.run {tf : Word} {frame : Nat → Word} {low : Fin 8 → Word} {c c' : Conf}
    (h : KInv tf frame low c) (hrun : Relation.ReflTransGen (KStep tf) c c') :
    KInv tf frame low c' := by
  induction hrun with
  | refl => exact h
  | tail _ hlast ih => exact ih.step hlast

/-- The invariant holds when the handler calls its service routine. -/
theorem KInv.start {procVar schedCtx : Word} (huser : m.sr.getLsbD 30 = false)
    (hsched : SameBank (savedSr (intrEntry procVar m).mem schedCtx) srInit) :
    KInv (intrEntry procVar m).r15
      (fun i => (intrEntry procVar m).mem ((intrEntry procVar m).r15 + BitVec.ofNat 32 (4 * i)))
      m.bank0 (start procVar schedCtx m) :=
  ⟨fun _ _ => rfl, fun _ => intrEntry_banks procVar huser, fun hw => (by cases hw),
    fun _ => hsched, fun hw => absurd rfl hw⟩

section Return

variable {procVar schedCtx : Word} {m : Machine} {c : Conf}

/-- A trapframe word at the return is the register it was saved from. -/
theorem Run.trapframe_eq (hrun : Run procVar schedCtx m c) (huser : m.sr.getLsbD 30 = false)
    (hsched : SameBank (savedSr (intrEntry procVar m).mem schedCtx) srInit) {i : Nat} {l : Loc}
    (hi : trapframeRegs[i]? = some l) (hlow : 8 ≤ i) :
    c.m.mem (c.m.r15 + BitVec.ofNat 32 (4 * i)) = (excEntry m).get l := by
  have hlt : i < 22 := (List.getElem?_eq_some_iff.mp hi).1
  rw [hrun.2.2, ((KInv.start huser hsched).run hrun.1).frame_eq i hlt]
  exact intrEntry_trapframe procVar huser hi hlow

/-- **Bank 0 at the return**: what bank 1 held at the last `swtch` of the process, or the user's
registers if there was none. -/
theorem Run.bank0_eq (hrun : Run procVar schedCtx m c) (huser : m.sr.getLsbD 30 = false)
    (hsched : SameBank (savedSr (intrEntry procVar m).mem schedCtx) srInit) :
    c.m.sel = true ∧ c.m.bank0 = c.last.getD m.bank0 :=
  ((KInv.start huser hsched).run hrun.1).proc_run hrun.2.1

/-- **The registers a preempted process gets back**: all of its own but `R0`–`R7`. -/
theorem Run.userRegs_eq (hrun : Run procVar schedCtx m c) (huser : m.sr.getLsbD 30 = false)
    (hsched : SameBank (savedSr (intrEntry procVar m).mem schedCtx) srInit) :
    userRegs (intrReturn c.m) = { userRegs m with low := c.last.getD m.bank0 } := by
  obtain ⟨hsel, hbank⟩ := hrun.bank0_eq huser hsched
  have htf {i : Nat} {l : Loc} (hi : trapframeRegs[i]? = some l) (hlow : 8 ≤ i) :=
    hrun.trapframe_eq huser hsched hi hlow
  have hhigh : (fun n : Fin 7 => c.m.mem (c.m.r15 + BitVec.ofNat 32 (4 * (8 + n.val)))) = m.high :=
    funext fun n => htf (l := .high n) (by revert n; decide) (by omega)
  have hpc : c.m.mem (c.m.r15 + 60#32) = m.pc := htf (i := 15) (l := .spc) rfl (by omega)
  have hsr : c.m.mem (c.m.r15 + 64#32) = m.sr := htf (i := 16) (l := .ssr) rfl (by omega)
  have hr15 : c.m.mem (c.m.r15 + 68#32) = m.r15 := htf (i := 17) (l := .sgr) rfl (by omega)
  have hgbr : c.m.mem (c.m.r15 + 72#32) = m.gbr := htf (i := 18) (l := .gbr) rfl (by omega)
  have hmach : c.m.mem (c.m.r15 + 76#32) = m.mach := htf (i := 19) (l := .mach) rfl (by omega)
  have hmacl : c.m.mem (c.m.r15 + 80#32) = m.macl := htf (i := 20) (l := .macl) rfl (by omega)
  have hpr : c.m.mem (c.m.r15 + 84#32) = m.pr := htf (i := 21) (l := .pr) rfl (by omega)
  rw [userRegs_intrReturn _ hsel, hbank, hhigh, hpc, hsr, hr15, hgbr, hmach, hmacl, hpr]
  rfl

/-- **When preemption is transparent.** A process interrupted in user mode gets all its registers
back exactly if it never called `swtch` before the return, or if at its last `swtch` the kernel's
own `R0`–`R7` happened to equal the interrupted user's. -/
theorem userRegs_restored_iff (hrun : Run procVar schedCtx m c)
    (huser : m.sr.getLsbD 30 = false)
    (hsched : SameBank (savedSr (intrEntry procVar m).mem schedCtx) srInit) :
    userRegs (intrReturn c.m) = userRegs m ↔ c.last = none ∨ c.last = some m.bank0 := by
  rw [hrun.userRegs_eq huser hsched]
  constructor
  · intro heq
    have hlow : c.last.getD m.bank0 = m.bank0 := congrArg UserRegs.low heq
    cases hlast : c.last with
    | none => exact Or.inl rfl
    | some k =>
        rw [hlast, Option.getD_some] at hlow
        exact Or.inr (by rw [hlow])
  · rintro (hlast | hlast)
    · rw [hlast]; rfl
    · rw [hlast]; rfl

end Return

/-! ## A preemption that changes `R0` -/

/-- A user program with `R0`–`R7` all 1; the scheduler's saved context is at `0x6000`, `proc` is at
`0x2000` and its kernel stack at `0x8000`. -/
def userProgram : Machine where
  bank0 := fun _ => 1
  bank1 := fun _ => 0
  high := fun _ => 0
  r15 := 0x500
  sr := 0
  ssr := 0
  spc := 0
  sgr := 0
  gbr := 0
  mach := 0
  macl := 0
  pr := 0
  pc := 0x100
  mem := fun a => if a = 0x1000#32 then 0x2000#32 else if a = 0x2008#32 then 0x8000#32
    else if a = 0x6074#32 then srInit else 0#32

theorem userRegs_restored_iff_userProgram :
    userRegs (intrReturn (start 0x1000 0x6000 userProgram).m) = userRegs userProgram ↔
      (start 0x1000 0x6000 userProgram).last = none ∨
        (start 0x1000 0x6000 userProgram).last = some userProgram.bank0 :=
  @userRegs_restored_iff 0x1000 0x6000 userProgram (start 0x1000 0x6000 userProgram)
    ⟨.refl, rfl, rfl⟩ rfl ⟨by decide +kernel, by decide +kernel⟩

/-- Kernel code of the process up to `swtch(&proc->context, cpu->scheduler)`. -/
def kernelWork (m : Machine) : Machine :=
  { m with
    bank1 := fun n => if n = 4 then 0x200c#32 else if n = 5 then 0x6000#32 else 7#32
    r15 := 0x8f00#32 }

/-- The scheduler's code up to `swtch(&cpu->scheduler, proc->context)`. -/
def schedWork (m : Machine) : Machine :=
  { m with
    bank0 := fun n => if n = 4 then 0x3000#32 else if n = 5 then 0x8e84#32 else 0#32
    r15 := 0x6100#32 }

theorem kernelWork_regs (hsel : m.sel = true) :
    (kernelWork m).get (.low 4) = 0x200c#32 ∧ (kernelWork m).get (.low 5) = 0x6000#32 := by
  have hsel' : (kernelWork m).sel = true := hsel
  constructor <;> rw [Machine.get, hsel'] <;> rfl

theorem schedWork_regs (hsr : SameBank m.sr srInit) :
    (schedWork m).get (.low 4) = 0x3000#32 ∧ (schedWork m).get (.low 5) = 0x8e84#32 := by
  have hsel' : (schedWork m).sel = false := sel_of_sameBank (m := schedWork m) hsr
  constructor <;> rw [Machine.get, hsel'] <;> rfl

theorem contextAddr_kernelWork (m : Machine) : contextAddr (kernelWork m) = 0x8e84#32 := by
  show 0x8f00#32 - 124#32 = _
  decide

theorem contextAddr_schedWork (m : Machine) : contextAddr (schedWork m) = 0x6084#32 := by
  show 0x6100#32 - 124#32 = _
  decide

/-- The process after the handler's work and its `swtch`. -/
def yielded (c : Conf) : Conf :=
  { c with
    m := swtch (kernelWork c.m), who := .sched, procCtx := contextAddr (kernelWork c.m)
    last := some (kernelWork c.m).bank1 }

/-- The process after the scheduler's work and its `swtch`, back at the trapframe. -/
def resumed (c : Conf) : Conf :=
  { c with
    m := { swtch (schedWork c.m) with r15 := 0x8fa8#32 }, who := .proc
    schedCtx := contextAddr (schedWork c.m) }

theorem reaches_yielded {c : Conf} (hwho : c.who = .proc) (hsel : c.m.sel = true)
    (hctx : c.schedCtx = 0x6000#32) :
    Relation.ReflTransGen (KStep 0x8fa8#32) c (yielded c) := by
  obtain ⟨h4, h5⟩ := kernelWork_regs hsel
  refine .tail (.single (.procCode c (kernelWork c.m) hwho rfl rfl (fun _ _ => rfl)
    fun _ _ => rfl)) (.procSwtch { c with m := kernelWork c.m } hwho (h5.trans hctx.symm) ?_ ?_ ?_)
  · intro i hi
    simp only [h4, contextAddr_kernelWork]
    revert i
    decide +kernel
  · intro i hi
    simp only [h4, hctx, contextAddr_kernelWork]
    revert i
    decide +kernel
  · intro i hi
    simp only [h4, contextAddr_kernelWork]
    revert i
    decide +kernel

theorem reaches_resumed {c : Conf} (hwho : c.who = .sched) (hsr : SameBank c.m.sr srInit)
    (hctx : c.procCtx = 0x8e84#32) :
    Relation.ReflTransGen (KStep 0x8fa8#32) c (resumed c) := by
  obtain ⟨h4, h5⟩ := schedWork_regs hsr
  refine .tail (.tail (.single (.schedCode c (schedWork c.m) hwho ⟨rfl, rfl⟩ (fun _ _ => rfl)
    fun _ _ => rfl)) (.schedToProc { c with m := schedWork c.m } hwho (h5.trans hctx.symm)
      ?_ ?_ ?_)) (.procCode _ { swtch (schedWork c.m) with r15 := 0x8fa8#32 } rfl rfl rfl
        (fun _ _ => rfl) fun _ _ => rfl)
  · intro i hi
    simp only [h4, contextAddr_schedWork]
    revert i
    decide +kernel
  · intro i hi
    simp only [h4, hctx, contextAddr_schedWork]
    revert i
    decide +kernel
  · intro i hi
    simp only [h4, contextAddr_schedWork]
    revert i
    decide +kernel

theorem start_r15_userProgram : (intrEntry 0x1000 userProgram).r15 = 0x8fa8#32 := by
  decide +kernel

theorem start_sched_userProgram :
    SameBank (savedSr (intrEntry 0x1000 userProgram).mem 0x6000) srInit :=
  ⟨by decide +kernel, by decide +kernel⟩

/-- A yield of `userProgram`'s handler: it works in bank 1, switches to the scheduler, is switched
back to and returns. -/
theorem run_yield :
    Run 0x1000 0x6000 userProgram (resumed (yielded (start 0x1000 0x6000 userProgram))) := by
  have hinv := KInv.start (m := userProgram) rfl start_sched_userProgram
  have hyield := reaches_yielded (c := start 0x1000 0x6000 userProgram) rfl
    (hinv.proc_run rfl).1 rfl
  rw [← start_r15_userProgram] at hyield
  have hresume := reaches_resumed (c := yielded (start 0x1000 0x6000 userProgram)) rfl
    ((hinv.run hyield).sched_run rfl) (contextAddr_kernelWork _)
  rw [← start_r15_userProgram] at hresume
  exact ⟨hyield.trans hresume, rfl, start_r15_userProgram.symm⟩

/-- **A preempted user program whose `R0` changes**: it is 1 at the interrupt and 7, the kernel's own
`R0`, after the return. -/
theorem yield_changes_r0 : ∃ c, Run 0x1000 0x6000 userProgram c ∧
    SameBank (savedSr (intrEntry 0x1000 userProgram).mem 0x6000) srInit ∧
    (userRegs userProgram).low 0 = 1#32 ∧ (userRegs (intrReturn c.m)).low 0 = 7#32 := by
  refine ⟨_, run_yield, start_sched_userProgram, rfl, ?_⟩
  rw [run_yield.userRegs_eq rfl start_sched_userProgram]
  rfl

end Xv6.Sh4a

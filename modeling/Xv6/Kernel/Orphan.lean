import Xv6.Kernel.CallBalance

/-! # Locks of dead processes

A process that has exited should hold no inode and no buffer. The handler of the timer interrupt
makes a killed process exit wherever it was interrupted, and the processor accepts interrupts in the
middle of system calls, because `popcli` always clears `BL`. -/

namespace Xv6

open Lib Fs Effects

open Function (update_apply update_of_ne update_self)

variable {α β : Type}

/-! ## The stack of a process -/

/-- What a program may leave held when it returns: nothing if it is at the bottom. -/
def floor : List (KProg Unit) → Set (Option BusyFlag)
  | [] => ∅
  | _ :: _ => {none}

/-- `Frames fs L`: the programs on the stack `fs` account for the locks `L` of their process and
are going to give all of them back. -/
def Frames : List (KProg Unit) → Set BusyFlag → Prop
  | [], L => L = ∅
  | f :: fs, L => ∃ h L', kernelEffects.Keeps f h (fun _ => floor fs) ∧
      (∀ l ∈ L, some l ∈ h ∨ l ∈ L') ∧ (none ∉ h → L' = ∅) ∧ Frames fs L'

variable {fs : List (KProg Unit)} {L : Set BusyFlag} {a : KAct} {p : Pid} {s t : Kernel}

theorem Frames.mono {L L₁ : Set BusyFlag} (h : Frames fs L) (hsub : L₁ ⊆ L) : Frames fs L₁ := by
  cases fs with
  | nil => exact Set.subset_eq_empty hsub h
  | cons f fs =>
      obtain ⟨h, L', hk, hL, hnone, hfs⟩ := h
      exact ⟨h, L', hk, fun l hl => hL l (hsub hl), hnone, hfs⟩

/-- The timer interrupt puts its handler on the stack. -/
theorem Frames.timer (h : Frames fs L) : Frames (doTimer :: fs) L :=
  ⟨floor fs, L, kbalanced_doTimer _ _ subset_rfl, fun _ hl => .inr hl, by
    cases fs with
    | nil => exact fun _ => h
    | cons f fs => exact fun hnot => absurd rfl hnot, h⟩

/-- A system call of a process in user mode. -/
theorem Frames.syscall (c : Syscall) (h : Frames [] L) : Frames [c.prog] L :=
  ⟨∅, L, holds_syscall c _ subset_rfl, fun _ hl => .inr hl, fun _ => h, h⟩

/-- The topmost program returns. -/
theorem Frames.ret (h : Frames (.ret () :: fs) L) : Frames fs L := by
  obtain ⟨h, L', hk, hL, hnone, hfs⟩ := h
  refine hfs.mono fun l hl => (hL l hl).resolve_left fun hmem => ?_
  have hfloor : some l ∈ floor fs := hk hmem
  cases fs with
  | nil => exact hfloor
  | cons f fs => cases hfloor

/-- The topmost program performs an action. -/
theorem Frames.act {L L₁ : Set BusyFlag} {k : a.Resp → KProg Unit} (h : Frames (.act a k :: fs) L)
    {b : a.Resp} (hL₁ : ∀ l ∈ L₁, (l ∈ L ∧ some l ∉ a.clears b) ∨ some l ∈ a.sets b)
    (hall : none ∈ a.clears b → L = ∅) : Frames (k b :: fs) L₁ := by
  obtain ⟨h, L', hk, hL, hnone, hfs⟩ := h
  by_cases hc : none ∈ a.clears b
  · refine ⟨_, ∅, hk.2 b, fun l hl => ?_, fun _ => rfl, hfs.mono (Set.empty_subset _)⟩
    rcases hL₁ l hl with ⟨hin, -⟩ | hset
    · rw [hall hc] at hin
      exact hin.elim
    · exact .inl (.inr hset)
  · refine ⟨_, L', hk.2 b, fun l hl => ?_, fun hn => hnone fun hin => hn (.inl ⟨hin, hc⟩), hfs⟩
    rcases hL₁ l hl with ⟨hin, hnot⟩ | hset
    · exact (hL l hin).imp_left fun hmem => .inl ⟨hmem, hnot⟩
    · exact .inl (.inr hset)

/-- A process that comes to the end of `exit` holds nothing. -/
theorem Frames.exit {k : KAct.Resp .exitZombie → KProg Unit}
    (h : Frames (.act .exitZombie k :: fs) L) :
    L = ∅ := by
  obtain ⟨h, L', hk, hL, hnone, hfs⟩ := h
  have hempty : h = ∅ := Set.disjoint_univ.mp hk.1
  subst hempty
  refine Set.eq_empty_of_forall_notMem fun l hl => ?_
  rcases hL l hl with hmem | hmem
  · exact hmem
  · rw [hnone (Set.notMem_empty _)] at hmem
    exact hmem

/-! ## The invariant -/

/-- A process that is neither unused nor an embryo nor a zombie. -/
def ProcState.alive : ProcState → Prop
  | .SLEEPING | .RUNNABLE | .RUNNING => True
  | _ => False

/-- The locks of a process. -/
def Kernel.locks (s : Kernel) (p : Pid) : Set BusyFlag := { l | s.busy l = some p }

/-- What holds of the process table. -/
structure ProcInv (s : Kernel) : Prop where
  /-- The current process is running. -/
  running : ∀ p, s.cur = some p → s.state p = .RUNNING
  /-- The children in the making are embryos. -/
  embryo : ∀ p q, s.np p = some q → s.state q = .EMBRYO
  /-- They have one parent. -/
  parent : ∀ p p' q, s.np p = some q → s.np p' = some q → p = p'
  /-- They have done nothing yet. -/
  fresh : ∀ q, s.state q = .EMBRYO → s.stack q = []

/-- **The invariant**: the programs of the living account for all locks. -/
structure LockInv (s : Kernel) : Prop extends ProcInv s where
  alive : ∀ p, (s.state p).alive → Frames (s.stack p) (s.locks p)
  dead : ∀ p, ¬ (s.state p).alive → s.locks p = ∅

theorem lockInv_start (live : Pid → Bool) : LockInv (Kernel.start live) where
  running p h := by cases h
  embryo p q h := by cases h
  parent p p' q h := by cases h
  fresh q _ := rfl
  alive p _ := Set.eq_empty_of_forall_notMem fun l hl => by cases hl
  dead p _ := Set.eq_empty_of_forall_notMem fun l hl => by cases hl

/-! ## Preservation -/

/-- **What an action can do**: change busy flags, make an embryo, finish one, reap a zombie or kill
a process. -/
theorem effect_cases {b : a.Resp} (h : a.effect p b s t) : (∃ f, t = { s with busy := f }) ∨
    (∃ q, s.state q = .UNUSED ∧
      t = { (s.setState q .EMBRYO).setStack q [] with np := Function.update s.np p (some q) }) ∨
    (∃ q st, s.np p = some q ∧ (st = .UNUSED ∨ st = .RUNNABLE) ∧
      t = { s.setState q st with np := Function.update s.np p none }) ∨
    (∃ q, s.state q = .ZOMBIE ∧
      t = { s.setState q .UNUSED with killed := Function.update s.killed q false }) ∨
    (∃ q, t = { s.setState q (if s.state q = .SLEEPING then .RUNNABLE else s.state q) with
        killed := Function.update s.killed q true }) := by
  have hsame : t = s → ∃ f, t = { s with busy := f } := fun h => ⟨s.busy, h⟩
  cases a with
  | fs a =>
      refine .inl ?_
      cases a with
      | bread | brelse | ilockBusy | iunlock => exact ⟨_, h.2⟩
      | bwrite => exact hsame h.2
      | iputTest ip =>
          cases b with
          | false => exact hsame h
          | true => exact ⟨_, h.2⟩
      | iputFreed ip => exact ⟨_, h⟩
      | _ => exact hsame h
  | timerKilled | procRunning | isInit => exact .inl (hsame h.2)
  | findUnused =>
      cases b with
      | false => exact .inl (hsame h.2)
      | true => exact .inr (.inl h)
  | dropChild =>
      obtain ⟨q, hq, ht⟩ := h
      exact .inr (.inr (.inl ⟨q, .UNUSED, hq, .inl rfl, ht⟩))
  | startChild =>
      obtain ⟨q, hq, ht⟩ := h
      exact .inr (.inr (.inl ⟨q, .RUNNABLE, hq, .inr rfl, ht⟩))
  | wait => exact h.elim (fun h => .inl (hsame h)) fun h => .inr (.inr (.inr (.inl h)))
  | kill => exact h.elim (fun h => .inl (hsame h)) fun h => .inr (.inr (.inr (.inr h)))
  | _ => exact .inl (hsame h)

/-- What an action of the file layers does to the busy flags. -/
theorem flags_cases {a : Act} {b : a.Resp} (h : a.flags p b s t) :
    (t = s ∧ a.clears b = ∅) ∨
    (∃ l, s.busy l = none ∧ t = s.setBusy l (some p) ∧ l ∈ a.sets b ∧ a.clears b = ∅) ∨
    (∃ l, t = s.setBusy l none ∧ a.clears b = {l}) := by
  cases a with
  | bread | ilockBusy => exact .inr (.inl ⟨_, h.1, h.2, rfl, rfl⟩)
  | brelse | iunlock => exact .inr (.inr ⟨_, h.2, rfl⟩)
  | iputFreed => exact .inr (.inr ⟨_, h, rfl⟩)
  | bwrite => exact .inl ⟨h.2, rfl⟩
  | iputTest ip =>
      cases b with
      | false => exact .inl ⟨h, rfl⟩
      | true => exact .inr (.inl ⟨_, h.1, h.2, rfl, rfl⟩)
  | _ => exact .inl ⟨h, rfl⟩

/-- The locks of a process after a busy flag has changed. -/
theorem mem_locks_setBusy {s : Kernel} {l l' : BusyFlag} {o : Option Pid} {q : Pid} :
    l ∈ (s.setBusy l' o).locks q ↔ (l = l' ∧ o = some q) ∨ (l ≠ l' ∧ l ∈ s.locks q) := by
  by_cases hl : l = l'
  · subst hl
    simp [Kernel.locks, Kernel.setBusy]
  · simp [Kernel.locks, Kernel.setBusy, hl]

/-- Only the file layers change busy flags, and only the test of `do_timer` clears all of them. -/
theorem effect_busy {b : a.Resp} (h : a.effect p b s t) (hfs : ∀ a', a ≠ .fs a') :
    t.busy = s.busy ∧ (none ∈ a.clears b ∨ a.clears b = ∅) := by
  cases a with
  | fs a => exact absurd rfl (hfs a)
  | timerKilled =>
      cases b with
      | false => exact ⟨congrArg _ h.2, .inr rfl⟩
      | true => exact ⟨congrArg _ h.2, .inl trivial⟩
  | procRunning | isInit => exact ⟨congrArg _ h.2, .inr rfl⟩
  | findUnused =>
      cases b with
      | false => exact ⟨congrArg _ h.2, .inr rfl⟩
      | true =>
          obtain ⟨q, -, rfl⟩ := h
          exact ⟨rfl, .inr rfl⟩
  | dropChild | startChild =>
      obtain ⟨q, -, rfl⟩ := h
      exact ⟨rfl, .inr rfl⟩
  | wait =>
      rcases h with rfl | ⟨q, -, rfl⟩
      · exact ⟨rfl, .inr rfl⟩
      · exact ⟨rfl, .inr rfl⟩
  | kill =>
      rcases h with rfl | ⟨q, rfl⟩
      · exact ⟨rfl, .inr rfl⟩
      · exact ⟨rfl, .inr rfl⟩
  | _ => exact ⟨congrArg _ h, .inr rfl⟩

/-- The locks of the process that acts, and of the others. -/
theorem effect_locks {b : a.Resp} (h : a.effect p b s t) (hall : none ∈ a.clears b → s.locks p = ∅)
    :
    (∀ l ∈ t.locks p, (l ∈ s.locks p ∧ some l ∉ a.clears b) ∨ some l ∈ a.sets b) ∧
    ∀ q, q ≠ p → t.locks q ⊆ s.locks q := by
  by_cases hfs : ∃ a', a = .fs a'
  · obtain ⟨a, rfl⟩ := hfs
    have hsome : ∀ l, some l ∈ KAct.clears (.fs a) b ↔ l ∈ a.clears b := fun l =>
      (Option.some_injective _).mem_set_image
    simp only [hsome]
    rcases flags_cases h with ⟨rfl, hc⟩ | ⟨l', hfree, rfl, hset, hc⟩ | ⟨l', rfl, hc⟩
    · rw [hc]
      exact ⟨fun l hl => .inl ⟨hl, id⟩, fun q _ => subset_rfl⟩
    · rw [hc]
      refine ⟨fun l hl => ?_, fun q hq l hl => ?_⟩
      · rcases mem_locks_setBusy.mp hl with ⟨rfl, -⟩ | ⟨-, hl⟩
        · exact .inr ⟨l, hset, rfl⟩
        · exact .inl ⟨hl, id⟩
      · rcases mem_locks_setBusy.mp hl with ⟨-, heq⟩ | ⟨-, hl⟩
        · exact absurd (Option.some_injective _ heq).symm hq
        · exact hl
    · rw [hc]
      refine ⟨fun l hl => ?_, fun q hq l hl => ?_⟩
      · rcases mem_locks_setBusy.mp hl with ⟨-, heq⟩ | ⟨hne, hl⟩
        · cases heq
        · exact .inl ⟨hl, hne⟩
      · rcases mem_locks_setBusy.mp hl with ⟨-, heq⟩ | ⟨-, hl⟩
        · cases heq
        · exact hl
  · obtain ⟨hbusy, hclears⟩ := effect_busy h fun a' ha => hfs ⟨a', ha⟩
    have hlocks : ∀ q, t.locks q = s.locks q := fun q => by rw [Kernel.locks, hbusy, Kernel.locks]
    refine ⟨fun l hl => ?_, fun q _ => (hlocks q).subset⟩
    rw [hlocks] at hl
    rcases hclears with hnone | hempty
    · rw [hall hnone] at hl
      exact hl.elim
    · exact .inl ⟨hl, hempty ▸ id⟩

/-- The process table after an action of the current process: the invariant, and how the living of
the new state lived in the old one. -/
theorem ProcInv.effect {b : a.Resp} (hI : ProcInv s) (hcur : s.cur = some p) (h : a.effect p b s t)
    :
    ProcInv t ∧ t.cur = some p ∧
      (∀ q, (t.state q).alive → ((s.state q).alive ∧ t.stack q = s.stack q) ∨
        (¬ (s.state q).alive ∧ t.stack q = [])) ∧
      ∀ q, ¬ (t.state q).alive → ¬ (s.state q).alive := by
  obtain ⟨hrun, hemb, hpar, hfresh⟩ := hI
  rcases effect_cases h with
    ⟨f, rfl⟩ | ⟨q, hq, rfl⟩ | ⟨q, st, hq, hst, rfl⟩ | ⟨q, hq, rfl⟩ | ⟨q, rfl⟩
  · exact ⟨⟨hrun, hemb, hpar, hfresh⟩, hcur, fun q hq => .inl ⟨hq, rfl⟩, fun q hq => hq⟩
  all_goals
    clear h
    refine ⟨⟨?_, ?_, ?_, ?_⟩, hcur, ?_, ?_⟩ <;>
      simp only [Kernel.setState, Kernel.setStack, update_apply] <;>
      grind [ProcState.alive]

/-- A step that changes only one process, and no busy flag. -/
theorem LockInv.update (hI : LockInv s) (p : Pid) (hproc : ProcInv t) (hbusy : t.busy = s.busy)
    (hstate : ∀ q, q ≠ p → t.state q = s.state q) (hstack : ∀ q, q ≠ p → t.stack q = s.stack q)
    (halive : (t.state p).alive → Frames (t.stack p) (s.locks p))
    (hdead : ¬ (t.state p).alive → s.locks p = ∅) : LockInv t := by
  have hlocks : ∀ q, t.locks q = s.locks q := fun q => by rw [Kernel.locks, hbusy, Kernel.locks]
  refine ⟨hproc, fun q hq => ?_, fun q hq => ?_⟩
  · rw [hlocks]
    by_cases hqp : q = p
    · subst hqp
      exact halive hq
    · rw [hstack q hqp]
      exact hI.alive q (hstate q hqp ▸ hq)
  · rw [hlocks]
    by_cases hqp : q = p
    · subst hqp
      exact hdead hq
    · exact hI.dead q (hstate q hqp ▸ hq)

/-- The current process changes its stack. -/
theorem LockInv.setStack {s : Kernel} (hI : LockInv s) (hcur : s.cur = some p) {c : Cpu}
    (hfs : Frames (s.stack p) (s.locks p) →
      Frames fs (s.locks p)) : LockInv { s.setStack p fs with cpu := c } := by
  have hp : s.state p = .RUNNING := hI.running p hcur
  have halive : (s.state p).alive := by rw [hp]; trivial
  refine hI.update p ⟨hI.running, hI.embryo, hI.parent, fun q hq => ?_⟩ rfl (fun _ _ => rfl)
    (fun q hqp => update_of_ne hqp _ _) (fun _ => ?_) fun hdead => absurd halive hdead
  · have hqp : q ≠ p := by
      rintro rfl
      cases hp.symm.trans hq
    exact (update_of_ne hqp _ _).trans (hI.fresh q hq)
  · show Frames (Function.update s.stack p fs p) _
    rw [update_self]
    exact hfs (hI.alive p halive)

/-- The current process leaves the processor. -/
theorem LockInv.sched {s : Kernel} (hI : LockInv s) (hcur : s.cur = some p) {st : ProcState}
    (hst : st.alive ∨ s.locks p = ∅) (hemb : st ≠ .EMBRYO) :
    LockInv (s.sched p st) := by
  have hp : s.state p = .RUNNING := hI.running p hcur
  have halive : (s.state p).alive := by rw [hp]; trivial
  have hself : (s.sched p st).state p = st := update_self _ _ _
  refine hI.update p ⟨?_, ?_, hI.parent, ?_⟩ rfl (fun q hqp => update_of_ne hqp _ _)
    (fun _ _ => rfl) (fun _ => hI.alive p halive) fun hdead => ?_
  · intro q hq
    cases hq
  · intro q q' hq
    have hne : q' ≠ p := by
      rintro rfl
      cases hp.symm.trans (hI.embryo q _ hq)
    exact (update_of_ne hne _ _).trans (hI.embryo q q' hq)
  · intro q hq
    have hne : q ≠ p := by
      rintro rfl
      exact hemb (hself.symm.trans hq)
    exact hI.fresh q ((update_of_ne hne _ _).symm.trans hq)
  · exact hst.resolve_left (hself ▸ hdead)

/-- A process changes from one state to another in which it lives. -/
theorem LockInv.setState {s : Kernel} (hI : LockInv s) {st : ProcState} {c : Cpu} {cur : Option Pid}
    (hold : (s.state p).alive) (hnew : st.alive)
    (hcur : ∀ q, cur = some q → (q = p ∧ st = .RUNNING) ∨ (q ≠ p ∧ s.state q = .RUNNING)) :
    LockInv { s.setState p st with cur := cur, cpu := c } := by
  refine hI.update p ⟨?_, ?_, hI.parent, ?_⟩ rfl (fun q hqp => update_of_ne hqp _ _)
    (fun _ _ => rfl) (fun _ => hI.alive p hold) fun hdead => ?_
  · intro q hq
    rcases hcur q hq with ⟨rfl, hst⟩ | ⟨hne, hrun⟩
    · exact (update_self _ _ _).trans hst
    · exact (update_of_ne hne _ _).trans hrun
  · intro q q' hq
    have hemb := hI.embryo q q' hq
    have hne : q' ≠ p := by
      rintro rfl
      rw [hemb] at hold
      exact hold
    exact (update_of_ne hne _ _).trans hemb
  · intro q hq
    by_cases hne : q = p
    · subst hne
      change Function.update s.state q st q = .EMBRYO at hq
      rw [update_self] at hq
      rw [hq] at hnew
      exact hnew.elim
    · exact hI.fresh q ((update_of_ne hne _ _).symm.trans hq)
  · change ¬ (Function.update s.state p st p).alive at hdead
    rw [update_self] at hdead
    exact absurd hnew hdead

/-- **The condition on a step**: a process that `do_timer` finds killed holds no inode and no
buffer. -/
def Kernel.ExitsFree (s : Kernel) (e : KEvent) : Prop :=
  e = .act → ∀ p k fs, s.cur = some p → s.stack p = .act .timerKilled k :: fs →
    s.killed p = true → s.locks p = ∅

/-- Only a process that `do_timer` finds killed is taken to drop everything. -/
theorem locks_eq_empty_of_clears {k : a.Resp → KProg Unit} {b : a.Resp} (hcur : s.cur = some p)
    (hstack : s.stack p = .act a k :: fs) (hok : s.ExitsFree .act) (h : a.effect p b s t)
    (hclears : none ∈ a.clears b) : s.locks p = ∅ := by
  cases a with
  | fs a =>
      obtain ⟨l, -, hl⟩ := hclears
      cases hl
  | timerKilled =>
      cases b with
      | false => exact hclears.elim
      | true => exact hok rfl p k fs hcur hstack h.1.symm
  | _ => exact hclears.elim

/-- An action of the current process keeps the invariant. -/
theorem LockInv.act (hI : LockInv s) {k : a.Resp → KProg Unit} {b : a.Resp} {c : Cpu}
    (hcur : s.cur = some p) (hstack : s.stack p = .act a k :: fs) (hok : s.ExitsFree .act)
    (h : a.effect p b s t) :
    LockInv { t.setStack p (k b :: fs) with cpu := c } := by
  have hall := locks_eq_empty_of_clears hcur hstack hok h
  obtain ⟨hself, hother⟩ := effect_locks h hall
  obtain ⟨hproc, hcur', hlive, hdead⟩ := hI.toProcInv.effect hcur h
  have hp : s.state p = .RUNNING := hI.running p hcur
  have halive : (s.state p).alive := by rw [hp]; trivial
  have hne : ∀ q, ¬ (s.state q).alive → q ≠ p := by
    rintro q hq rfl
    exact hq halive
  refine ⟨⟨hproc.running, hproc.embryo, hproc.parent, fun q hq => ?_⟩, fun q hq => ?_,
    fun q hq => ?_⟩
  · have hqp : q ≠ p := by
      rintro rfl
      cases (hproc.running q hcur').symm.trans hq
    exact (update_of_ne hqp _ _).trans (hproc.fresh q hq)
  · show Frames (Function.update t.stack p (k b :: fs) q) (t.locks q)
    by_cases hqp : q = p
    · subst hqp
      rw [update_self]
      exact (hstack ▸ hI.alive q halive).act hself hall
    · rw [update_of_ne hqp]
      rcases hlive q hq with ⟨hold, hsame⟩ | ⟨hold, hnil⟩
      · rw [hsame]
        exact (hI.alive q hold).mono (hother q hqp)
      · rw [hnil]
        exact Set.subset_eq_empty (hother q hqp) (hI.dead q hold)
  · have hold := hdead q hq
    exact Set.subset_eq_empty (hother q (hne q hold)) (hI.dead q hold)

/-- A step that meets the condition keeps the invariant. -/
theorem LockInv.step {e : KEvent} (hI : LockInv s) (hok : s.ExitsFree e) (h : KStep s e t) :
    LockInv t := by
  cases h with
  | sched hcur hp hc hstack =>
      exact hI.setState (by rw [hp]; trivial) trivial fun q hq =>
        .inl ⟨(Option.some_injective _ hq).symm, rfl⟩
  | user hcur hp hstack hsr =>
      exact hI.setState (by rw [hp]; trivial) trivial fun q hq =>
        .inl ⟨(Option.some_injective _ hq).symm, rfl⟩
  | @wake p hp =>
      show LockInv { s.setState p .RUNNABLE with cur := s.cur, cpu := s.cpu }
      refine hI.setState (by rw [hp]; trivial) trivial fun q hq => .inr ⟨?_, hI.running q hq⟩
      rintro rfl
      cases hp.symm.trans (hI.running q hq)
  | timer hcur hbl => exact hI.setStack hcur Frames.timer
  | syscall c hcur hstack =>
      exact hI.setStack hcur fun hF => (hstack ▸ hF).syscall c
  | ret hcur hstack => exact hI.setStack hcur fun hF => (hstack ▸ hF).ret
  | sleep hcur hstack ha => exact hI.sched hcur (.inl trivial) ProcState.noConfusion
  | @yield p k fs hcur hstack hncli =>
      have hI' : LockInv { s.setStack p (k () :: fs) with cpu := s.cpu } :=
        hI.setStack hcur fun hF => (hstack ▸ hF).act (fun l hl => .inl ⟨hl, id⟩) fun hn => hn.elim
      exact hI'.sched hcur (.inl trivial) ProcState.noConfusion
  | @exit p k fs hcur hstack hncli =>
      have halive : (s.state p).alive := by rw [hI.running p hcur]; trivial
      exact hI.sched hcur (.inr (hstack ▸ hI.alive p halive).exit) ProcState.noConfusion
  | act hcur hstack ha hc heff => exact hI.act hcur hstack hok heff

/-- In a state with the invariant the locks are held by the living. -/
theorem LockInv.held_by_living {s : Kernel} (hI : LockInv s) {l : BusyFlag}
    (hl : s.busy l = some p) : s.state p ≠ .ZOMBIE ∧ s.state p ≠ .UNUSED := by
  have halive : (s.state p).alive := by
    by_contra hdead
    have hmem : l ∈ s.locks p := hl
    rw [hI.dead p hdead] at hmem
    exact hmem
  constructor
  · intro hz
    rw [hz] at halive
    exact halive
  · intro hz
    rw [hz] at halive
    exact halive

/-- **The locks of the living.** In a run in which every process that `do_timer` finds killed holds
no inode and no buffer, all locks are held by processes that are neither zombies nor unused. -/
theorem locks_held_by_living {live : Pid → Bool} {tr : List (Kernel × KEvent)} {u : Kernel}
    (hrun : Exec KStep (Kernel.start live) tr u) (hok : ∀ e ∈ tr, e.1.ExitsFree e.2) :
    ∀ x ∈ visited tr u, ∀ l p, x.busy l = some p → x.state p ≠ .ZOMBIE ∧ x.state p ≠ .UNUSED :=
  fun x hx _ _ hl => (hrun.forall_visited_of_ok (fun _ _ _ hI hok h => hI.step hok h)
    (lockInv_start live) hok x hx).held_by_living hl

/-- **No lock is taken to user mode**: in such a run a process that has nothing left to do in the
kernel holds no inode and no buffer. -/
theorem userMode_holds_nothing {live : Pid → Bool} {tr : List (Kernel × KEvent)} {u : Kernel}
    (hrun : Exec KStep (Kernel.start live) tr u) (hok : ∀ e ∈ tr, e.1.ExitsFree e.2) :
    ∀ x ∈ visited tr u, ∀ p, x.stack p = [] → ∀ l, x.busy l ≠ some p := by
  intro x hx p hstack l hl
  have hI := hrun.forall_visited_of_ok (fun _ _ _ hI hok h => hI.step hok h) (lockInv_start live)
    hok x hx
  have hnone : x.locks p = ∅ := by
    by_cases halive : (x.state p).alive
    · have hframes := hI.alive p halive
      rwa [hstack] at hframes
    · exact hI.dead p halive
  exact Set.eq_empty_iff_forall_notMem.mp hnone l hl

/-! ## A zombie with a lock -/

/-- With no spin lock held, a section under one leaves interrupts enabled, even if they were
blocked before it: `pushcli` makes `intena` nonzero. -/
theorem Cpu.popcli_pushcli {c : Cpu} (h : c.ncli = 0) :
    ∃ c', c.pushcli.popcli = some c' ∧ c'.blocked = false ∧ c'.ncli = 0 := by
  have hblocked : c.pushcli.blocked = true := c.blocked_cli
  have hintena : c.sr ||| SR_BL_MASK ≠ 0#32 := by
    intro h0
    have hcli := c.blocked_cli
    simp [blocked, cli, h0] at hcli
  refine ⟨{ c.pushcli with ncli := 0 }.sti, ?_, Cpu.blocked_sti _, rfl⟩
  rw [popcli, if_neg (by rw [hblocked]; decide)]
  simp [pushcli, cli, sti, h, hintena]

/-- Process `p` runs in the kernel with the stack `fs` and no spin lock held. -/
structure Kernel.Sits (s : Kernel) (p : Pid) (fs : List (KProg Unit)) (blocked killed : Bool)
    (busy : BusyFlag → Option Pid) : Prop where
  cur : s.cur = some p
  stack : s.stack p = fs
  ncli : s.cpu.ncli = 0
  blocked : s.cpu.blocked = blocked
  killed : s.killed p = killed
  busy : s.busy = busy

/-- A run all of whose steps meet a condition. -/
def Reach (ok : Kernel → KEvent → Prop) (s t : Kernel) : Prop :=
  ∃ tr, Exec KStep s tr t ∧ ∀ e ∈ tr, ok e.1 e.2

theorem Reach.snoc {ok : Kernel → KEvent → Prop} {s t u : Kernel} {e : KEvent}
    (h : Reach ok s t) (hstep : KStep t e u) (hok : ok t e) : Reach ok s u := by
  obtain ⟨tr, hrun, htr⟩ := h
  refine ⟨_, hrun.snoc hstep, fun x hx => ?_⟩
  rcases List.mem_append.mp hx with hx | hx
  · exact htr x hx
  · rw [List.mem_singleton.mp hx]
    exact hok

namespace Kernel.Sits

variable {s : Kernel} {p : Pid} {fs : List (KProg Unit)} {blocked killed : Bool}
  {busy : BusyFlag → Option Pid}

theorem syscall (h : s.Sits p [] blocked killed busy) (c : Syscall) :
    ∃ t, KStep s (.syscall c) t ∧ t.Sits p [c.prog] true killed busy :=
  ⟨_, .syscall c h.cur h.stack, h.cur, update_self _ _ _, h.ncli, s.cpu.blocked_cli,
    h.killed, h.busy⟩

theorem timer (h : s.Sits p fs false killed busy) :
    ∃ t, KStep s .timer t ∧ t.Sits p (doTimer :: fs) true killed busy :=
  ⟨_, .timer h.cur h.blocked, h.cur, (update_self _ _ _).trans (by rw [h.stack]), h.ncli,
    s.cpu.blocked_cli, h.killed, h.busy⟩

theorem ret (h : s.Sits p (.ret () :: fs) blocked killed busy) :
    ∃ t, KStep s .ret t ∧ t.Sits p fs false killed busy :=
  ⟨_, .ret h.cur h.stack, h.cur, update_self _ _ _, h.ncli, s.cpu.blocked_sti, h.killed,
    h.busy⟩

/-- An action without a section that changes nothing. -/
theorem act {a : KAct} {k : a.Resp → KProg Unit}
    (h : s.Sits p (.act a k :: fs) blocked killed busy) (hspin : a.spin = .none) {b : a.Resp}
    (heff : a.effect p b s s) :
    ∃ t, KStep s .act t ∧ t.Sits p (k b :: fs) blocked killed busy :=
  ⟨_, .act h.cur h.stack (by rintro rfl; cases hspin) (by rw [hspin]; rfl) heff, h.cur,
    update_self _ _ _, h.ncli, h.blocked, h.killed, h.busy⟩

/-- A section, after which interrupts are enabled. -/
theorem «section» {a : KAct} {k : a.Resp → KProg Unit} {killed' : Bool}
    {busy' : BusyFlag → Option Pid} {t : Kernel}
    (h : s.Sits p (.act a k :: fs) blocked killed busy) (hspin : a.spin = .whole)
    (hyield : a ≠ .yield) {b : a.Resp} (heff : a.effect p b s t) (hcur : t.cur = s.cur)
    (hkilled : t.killed p = killed') (hbusy : t.busy = busy') :
    ∃ t, KStep s .act t ∧ t.Sits p (k b :: fs) false killed' busy' := by
  obtain ⟨c, hc, hbl, hncli⟩ := Cpu.popcli_pushcli h.ncli
  exact ⟨_, .act h.cur h.stack hyield (by rw [hspin]; exact hc) heff, hcur.trans h.cur,
    update_self _ _ _, hncli, hbl, hkilled, hbusy⟩

/-- A step that is not the test of `do_timer` meets the condition. -/
theorem exitsFree {a : KAct} {k : a.Resp → KProg Unit}
    (h : s.Sits p (.act a k :: fs) blocked killed busy) (ha : a ≠ .timerKilled) (e : KEvent) :
    s.ExitsFree e := by
  rintro - q k' fs' hcur hstack
  obtain rfl : p = q := Option.some_injective _ (h.cur.symm.trans hcur)
  rw [h.stack] at hstack
  injection hstack with hact
  injection hact with hact
  exact absurd hact ha

end Kernel.Sits

/-- A process other than the first one. -/
def proc1 : Pid := ⟨1, one_lt_NPROC⟩

/-- The cached inode of the root. -/
def slot0 : Slot := ⟨0, zero_lt_NINODE⟩

/-- The busy flags while process 1 holds the root. -/
def rootBusy : BusyFlag → Option Pid :=
  Function.update (fun _ => none) (.inode slot0) (some proc1)

/-- The rest of `sys_chdir("/")` of process 1 once it has locked the root. -/
def chdirRest : KProg Unit :=
  match (Syscall.chdir (some [47])).prog with
  | .act (.fs (.iget _)) k =>
      match k slot0 with
      | .act (.fs (.ilockBusy _)) k => k ()
      | p => p
  | p => p

/-- Process 1 kills itself and calls `chdir("/")`, which locks the root. -/
theorem reach_rootBusy : ∃ t, Reach Kernel.ExitsFree (Kernel.start fun _ => true) t ∧
    t.Sits proc1 [chdirRest] false true rootBusy := by
  obtain ⟨t₀, hr₀, h₀⟩ : ∃ t, Reach Kernel.ExitsFree (Kernel.start fun _ => true) t ∧
      t.Sits proc1 [] false false fun _ => none :=
    ⟨_, Reach.snoc ⟨[], .nil _, fun _ h => by cases h⟩
      (@KStep.user _ proc1 0#32 0#32 rfl rfl rfl rfl) (fun h => by cases h), rfl, rfl, rfl, rfl, rfl, rfl⟩
  -- kill(), which finds the process itself
  obtain ⟨t₁, hk₁, h₁⟩ := h₀.syscall (.kill 2)
  have hr₁ := hr₀.snoc hk₁ fun h => by cases h
  obtain ⟨t₂, hk₂, h₂⟩ := h₁.section (a := .kill 2) (b := (0 : Int)) rfl (fun h => by cases h)
    (.inr ⟨proc1, rfl⟩) rfl
    (show Function.update t₁.killed proc1 true proc1 = true from update_self _ _ _) h₁.busy
  have hr₂ := hr₁.snoc hk₂ (h₁.exitsFree (a := .kill 2) (fun h => by cases h) _)
  obtain ⟨t₃, hk₃, h₃⟩ := h₂.ret
  have hr₃ := hr₂.snoc hk₃ fun h => by cases h
  -- chdir("/")
  obtain ⟨t₄, hk₄, h₄⟩ := h₃.syscall (.chdir (some [47]))
  have hr₄ := hr₃.snoc hk₄ fun h => by cases h
  obtain ⟨t₅, hk₅, h₅⟩ := h₄.section (a := .fs (.iget ROOTINO)) (b := slot0) rfl
    (fun h => by cases h) rfl rfl h₄.killed h₄.busy
  have hr₅ := hr₄.snoc hk₅ (h₄.exitsFree (a := .fs (.iget ROOTINO)) (fun h => by cases h) _)
  obtain ⟨t₆, hk₆, h₆⟩ := h₅.section (a := .fs (.ilockBusy slot0)) (b := ()) rfl
    (fun h => by cases h) ⟨congrFun h₅.busy _, rfl⟩ rfl h₅.killed
    (show Function.update t₅.busy _ _ = rootBusy by rw [h₅.busy, rootBusy])
  have hr₆ := hr₅.snoc hk₆ (h₅.exitsFree (a := .fs (.ilockBusy slot0)) (fun h => by cases h) _)
  exact ⟨t₆, hr₆, h₆⟩

/-- The condition on the steps is met by runs in which a lock is held. -/
theorem locks_held_by_living_rootBusy : ∃ tr u, Exec KStep (Kernel.start fun _ => true) tr u ∧
    u.busy (.inode slot0) = some proc1 ∧
    ∀ x ∈ visited tr u, ∀ l p, x.busy l = some p → x.state p ≠ .ZOMBIE ∧ x.state p ≠ .UNUSED := by
  obtain ⟨t, ⟨tr, hrun, hok⟩, ht⟩ := reach_rootBusy
  exact ⟨tr, t, hrun, (congrFun ht.busy _).trans (Function.update_self _ _ _),
    locks_held_by_living hrun hok⟩

/-- Process 1 is in the kernel while it holds the root. -/
theorem userMode_holds_nothing_rootBusy : ∃ tr u, Exec KStep (Kernel.start fun _ => true) tr u ∧
    u.busy (.inode slot0) = some proc1 ∧ u.stack proc1 ≠ [] := by
  obtain ⟨t, ⟨tr, hrun, hok⟩, ht⟩ := reach_rootBusy
  have hbusy := (congrFun ht.busy (.inode slot0)).trans (update_self _ _ _)
  exact ⟨tr, t, hrun, hbusy, fun hstack =>
    userMode_holds_nothing hrun hok t (by simp) proc1 hstack _ hbusy⟩

/-- What is left of `exit` after the loop that closes the files. -/
def exitTail : KProg Unit :=
  liftFs (do
    let ip ← cwd
    iput ip
    setCwd none) >>= fun _ => exitZombie >>= fun never => never.elim

theorem liftFs_bind (p : FsProg α) (f : α → FsProg β) :
    liftFs (p >>= f) = liftFs p >>= fun x => liftFs (f x) := by
  induction p with
  | ret x => rfl
  | act a k ih =>
      show Prog.act _ _ = Prog.act _ _
      exact congrArg _ (funext ih)
  | panic msg => rfl

/-- `exit` of a process other than the first one. -/
theorem exit_eq : (liftFs exitFs >>= fun _ => exitZombie >>= fun never => never.elim) =
    liftFs (closeFiles (List.finRange NOFILE)) >>= fun _ => exitTail := by
  rw [exitFs, liftFs_bind, bind_assoc]
  rfl

/-- What is left of `do_timer` after its first test for a killed process. -/
def timerRest : KProg Unit := do
  let running ← procRunning
  (if running then yield else pure ())
  let killed ← timerKilled
  (if killed then exit else pure ())

/-- The loop that closes the files finds none open. -/
theorem reach_closeFiles {ok : Kernel → KEvent → Prop} {s₀ s : Kernel} {blocked killed : Bool}
    {busy : BusyFlag → Option Pid} {fds : List Fd} {f : Unit → KProg Unit} (hok : ∀ s e, ok s e)
    (hr : Reach ok s₀ s) (h : s.Sits p ((liftFs (closeFiles fds) >>= f) :: fs) blocked killed busy)
    :
    ∃ t, Reach ok s₀ t ∧ t.Sits p (f () :: fs) blocked killed busy := by
  induction fds generalizing s with
  | nil => exact ⟨s, hr, h⟩
  | cons fd fds ih =>
      obtain ⟨t, hk, ht⟩ := h.act (a := .fs (.ofile fd)) (b := (none : Option Fid)) rfl rfl
      exact ih (hr.snoc hk (hok _ _)) ht

/-- **A zombie that holds the root directory.** Process 1 is killed, locks the root in `chdir("/")`
and is interrupted by the timer; `do_timer` makes it exit. -/
theorem zombie_holds_root : ∃ tr u, Exec KStep (Kernel.start fun _ => true) tr u ∧
    u.busy (.inode slot0) = some proc1 ∧ u.state proc1 = .ZOMBIE := by
  obtain ⟨t₀, ⟨tr, hrun, -⟩, h₀⟩ := reach_rootBusy
  have hok : ∀ (s : Kernel) (e : KEvent), (fun _ _ => True) s e := fun _ _ => trivial
  have hr₀ : Reach (fun _ _ => True) (Kernel.start fun _ => true) t₀ :=
    ⟨tr, hrun, fun _ _ => trivial⟩
  obtain ⟨t₁, hk₁, h₁⟩ := h₀.timer
  have hr₁ := hr₀.snoc hk₁ trivial
  obtain ⟨t₂, hk₂, h₂⟩ := h₁.section (a := .timerTicks) (b := ()) rfl (fun h => by cases h) rfl rfl
    h₁.killed h₁.busy
  have hr₂ := hr₁.snoc hk₂ trivial
  obtain ⟨t₃, hk₃, h₃⟩ := h₂.act (a := .timerKilled) (b := true) rfl ⟨h₂.killed.symm, rfl⟩
  have hr₃ := hr₂.snoc hk₃ trivial
  obtain ⟨t₄, hk₄, h₄⟩ := h₃.act (a := .isInit) (b := false) rfl ⟨rfl, rfl⟩
  have hr₄ := hr₃.snoc hk₄ trivial
  have h₄' : t₄.Sits proc1 (((liftFs exitFs >>= fun _ => exitZombie >>= fun never => never.elim) >>=
      fun _ => timerRest) :: [chdirRest]) false true rootBusy := h₄
  rw [exit_eq, bind_assoc] at h₄'
  obtain ⟨t₅, hr₅, h₅⟩ := reach_closeFiles hok hr₄ h₄'
  obtain ⟨t₆, hk₆, h₆⟩ := h₅.act (a := .fs .cwd) (b := slot0) rfl rfl
  have hr₆ := hr₅.snoc hk₆ trivial
  obtain ⟨t₇, hk₇, h₇⟩ := h₆.section (a := .fs (.iputTest slot0)) (b := false) rfl
    (fun h => by cases h) rfl rfl h₆.killed h₆.busy
  have hr₇ := hr₆.snoc hk₇ trivial
  obtain ⟨t₈, hk₈, h₈⟩ := h₇.act (a := .fs (.setCwd none)) (b := ()) rfl rfl
  obtain ⟨tr, hrun, -⟩ := hr₇.snoc hk₈ trivial
  have hexit : KStep t₈ .exit (t₈.sched proc1 .ZOMBIE) := .exit h₈.cur h₈.stack h₈.ncli
  have hzombie : Function.update t₈.state proc1 .ZOMBIE proc1 = .ZOMBIE :=
    Function.update_self _ _ _
  exact ⟨_, _, hrun.snoc hexit, (congrFun h₈.busy _).trans (Function.update_self _ _ _), hzombie⟩

end Xv6

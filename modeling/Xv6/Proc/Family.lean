import Xv6.Proc.Records

/-! # Pids and parents

On one processor the process table is well formed in every state of a run, as long as fewer than
`2 ^ 31 - 1` processes have been created: pids are positive and differ, and every process has a
parent that is alive, which is its creator or `initproc`. -/

namespace Xv6.Ptable

open Lib

/-- There is one processor: the scheduler runs when no process does. -/
def OneCpu (s : Table) : ProcEvent → Prop
  | .sched _ => ∀ q, (s.proc q).state ≠ .RUNNING
  | _ => True

instance (s : Table) (e : ProcEvent) : Decidable (OneCpu s e) :=
  match e with
  | .sched _ => decidable_of_iff ((List.finRange NPROC).all fun q => (s.proc q).state ≠ .RUNNING)
      (by simp [OneCpu])
  | .yield _ | .sleep _ _ | .wakeup _ | .fork _ | .forkFail _ | .forkParent _ | .forkDone _
  | .wait _ | .scan _ | .exit _ | .kill _ => isTrue trivial

/-- **The steps of the system on one processor.** -/
def Table.cpuStep (s : Table) (e : ProcEvent) : Option Table :=
  if OneCpu s e then s.step e else none

variable {s t : Table} {e : ProcEvent}

theorem cpuStep_eq_some (h : s.cpuStep e = some t) : OneCpu s e ∧ Steps s e t := by
  rw [Table.cpuStep] at h
  split at h
  · exact ⟨‹_›, steps_of_step h⟩
  · cases h

/-- A run on one processor from `userinit`. -/
abbrev CpuRun (tr : List (Table × ProcEvent)) (s : Table) : Prop :=
  Exec (StepOf Table.cpuStep) Table.boot tr s

/-- **The process table is well formed.** -/
structure WellFormed (s : Table) : Prop where
  pos : ∀ q, (s.proc q).state ≠ .UNUSED → 0 < (s.proc q).pid
  distinct : ∀ q q', (s.proc q).state ≠ .UNUSED → (s.proc q').state ≠ .UNUSED →
    (s.proc q).pid = (s.proc q').pid → q = q'
  /-- The parent is alive, and it is the creator or `initproc`. -/
  parent : ∀ q, q ≠ initproc → (s.proc q).state ≠ .UNUSED → (s.proc q).state ≠ .EMBRYO →
    ∃ w, (s.proc q).parent = some w ∧ (s.proc w).state ≠ .UNUSED ∧ (s.proc w).state ≠ .EMBRYO ∧
      (s.proc w).state ≠ .ZOMBIE ∧
      (w = initproc ∨ ∃ f ∈ s.forks, f.child = (s.proc q).birth ∧ f.creator = (s.proc w).birth)
  unused : ∀ q, (s.proc q).state = .UNUSED → (s.proc q).parent = none
  running : ∀ p q, (s.proc p).state = .RUNNING → (s.proc q).state = .RUNNING → p = q

/-! ## Every process has a parent -/

/-- Processes other than `initproc` have a parent. -/
def Parented (s : Table) : Prop :=
  ∀ q, q ≠ initproc → Started (s.proc q).state → (s.proc q).parent ≠ none

theorem parented_boot : Parented Table.boot := by
  intro q hne hst
  refine absurd ?_ hst.1
  rw [show Table.boot.proc q = _ from if_neg hne]

theorem Parented.keep (h : Parented s) (hk : Kept s t) : Parented t := by
  intro q hne hst
  obtain ⟨hst', hparent⟩ := hk.started q hst
  rcases hparent with heq | heq
  · rw [heq]
    exact h q hne hst'
  · rw [heq]
    exact Option.some_ne_none _

/-- The parents of a step in which one entry changes. -/
theorem Parented.set (h : Parented s) {q : Entry}
    (hself : Started (t.proc q).state → (t.proc q).parent ≠ none)
    (hother : ∀ q', q' ≠ q → t.proc q' = s.proc q') : Parented t := by
  intro q' hne hst
  by_cases hqq : q' = q
  · rw [hqq] at hst ⊢
    exact hself hst
  · rw [hother q' hqq] at hst ⊢
    exact h q' hne hst

theorem Parented.step (h : Parented s) (htable : TableInv s) (hstep : Steps s e t) :
    Parented t := by
  cases htable.changes hstep with
  | kept hkept => exact h.keep hkept
  | born he hq hself hother hnext hbirths hforks hwaits hmoved =>
      refine (h.set (fun hst => ?_) hother).keep hmoved
      rw [hself] at hst
      exact absurd rfl hst.2
  | done hq hpar hself hother hnext hbirths hforks hwaits hmoved =>
      refine (h.set (fun _ => ?_) hother).keep hmoved
      rw [hself]
      show _ ≠ none
      rw [hpar]
      exact Option.some_ne_none _
  | reaped hpar hq hself hother hnext hbirths hforks hwaits hmoved =>
      refine (h.set (fun hst => ?_) hother).keep hmoved
      rw [hself] at hst
      exact absurd rfl hst.1

/-! ## Processes are numbered from one on -/

/-- Processes have positive numbers. -/
def Counted (s : Table) : Prop := ∀ q, (s.proc q).state ≠ .UNUSED → 0 < (s.proc q).birth

theorem counted_boot : Counted Table.boot := by
  intro q hq
  by_cases hne : q = initproc
  · rw [hne]
    exact Nat.one_pos
  · refine absurd ?_ hq
    rw [show Table.boot.proc q = _ from if_neg hne]

theorem Counted.keep (h : Counted s) (hk : Kept s t) : Counted t := by
  intro q hq
  rw [hk.birth]
  exact h q (hk.used q hq)

/-- The numbers after a step in which one entry changes. -/
theorem Counted.set (h : Counted s) {q : Entry}
    (hself : (t.proc q).state ≠ .UNUSED → 0 < (t.proc q).birth)
    (hother : ∀ q', q' ≠ q → t.proc q' = s.proc q') : Counted t := by
  intro q' hq'
  by_cases hqq : q' = q
  · rw [hqq] at hq' ⊢
    exact hself hq'
  · rw [hother q' hqq] at hq' ⊢
    exact h q' hq'

theorem Counted.step (h : Counted s) (htable : TableInv s) (hstep : Steps s e t) : Counted t := by
  cases htable.changes hstep with
  | kept hkept => exact h.keep hkept
  | born he hq hself hother hnext hbirths hforks hwaits hmoved =>
      refine (h.set (fun _ => ?_) hother).keep hmoved
      rw [hself]
      exact Nat.succ_pos _
  | @done t u p q hq hpar hself hother hnext hbirths hforks hwaits hmoved =>
      refine (h.set (fun _ => ?_) hother).keep hmoved
      rw [hself]
      exact h q (by rw [hq]; exact ProcState.noConfusion)
  | reaped hpar hq hself hother hnext hbirths hforks hwaits hmoved =>
      refine (h.set (fun hst => ?_) hother).keep hmoved
      rw [hself] at hst
      exact absurd rfl hst

/-! ## One process runs -/

/-- At most one process is running. -/
def OneRunning (s : Table) : Prop :=
  ∀ p q, (s.proc p).state = .RUNNING → (s.proc q).state = .RUNNING → p = q

theorem oneRunning_boot : OneRunning Table.boot := by
  intro p q hp
  have hstate : (Table.boot.proc p).state ≠ .RUNNING := by
    show (if p = initproc then _ else _ : Proc).state ≠ _
    split <;> exact ProcState.noConfusion
  exact absurd hp hstate

/-- Processes that run have run before. -/
theorem OneRunning.mono (h : OneRunning s)
    (hrun : ∀ q, (t.proc q).state = .RUNNING → (s.proc q).state = .RUNNING) : OneRunning t :=
  fun p q hp hq => h p q (hrun p hp) (hrun q hq)

theorem woken_running {x : Proc} {c : Chan} (h : (x.woken c).state = .RUNNING) :
    x.state = .RUNNING := by
  rw [woken_state] at h
  split at h
  · cases h
  · exact h

/-- An entry changes to a process that does not run, or runs as before. -/
theorem running_set {s : Table} {p : Entry} {x : Proc}
    (hx : x.state = .RUNNING → (s.proc p).state = .RUNNING) (q : Entry)
    (hq : ((s.set p x).proc q).state = .RUNNING) : (s.proc q).state = .RUNNING := by
  rw [set_proc] at hq
  split at hq
  · rename_i hqp
    rw [hqp]
    exact hx hq
  · exact hq

/-- A running process changes an entry and goes on at another place. -/
theorem running_moved {s : Table} {p q : Entry} {x : Proc} {pl : Place}
    (hp : (s.proc p).state = .RUNNING) (hx : x.state = .RUNNING → (s.proc q).state = .RUNNING)
    (r : Entry) (hr : (((s.set q x).set p (s.moved p pl)).proc r).state = .RUNNING) :
    (s.proc r).state = .RUNNING := by
  rw [set_proc] at hr
  split at hr
  · rename_i hrp
    rw [hrp]
    exact hp
  · exact running_set hx r hr

theorem OneRunning.step (h : OneRunning s) (hcpu : OneCpu s e) (hstep : Steps s e t) :
    OneRunning t := by
  cases hstep with
  | @sched p hp =>
      intro q q' hq hq'
      have hnew : ∀ r, ((s.set p { s.proc p with state := .RUNNING, chan := none }).proc r).state =
          .RUNNING → r = p := by
        intro r hr
        rw [set_proc] at hr
        split at hr
        · assumption
        · exact absurd hr (hcpu r)
      rw [hnew q hq, hnew q' hq']
  | wakeup => exact h.mono fun q hq => woken_running hq
  | @kill pid q =>
      refine h.mono (running_set fun hst => ?_)
      simp only [Proc.kill] at hst
      split at hst
      · cases hst
      · exact hst
  | idle => exact h
  | yield hp => exact h.mono (running_set nofun)
  | sleep hp => exact h.mono (running_set nofun)
  | fork hp hplace hq => exact h.mono (running_moved hp nofun)
  | forkFail hp hplace => exact h.mono (running_moved hp nofun)
  | forkParent hp hplace => exact h.mono (running_moved hp id)
  | forkDone hp hplace => exact h.mono (running_moved hp nofun)
  | wait hp hplace => exact h.mono (running_set fun _ => hp)
  | reap hp hparent hq => exact h.mono (running_moved hp nofun)
  | giveUp hp => exact h.mono (running_set fun _ => hp)
  | waitSleep hp hplace hno => exact h.mono (running_set nofun)
  | @exit p hp hinit =>
      refine h.mono fun q hq => ?_
      have hexit := exited s p q
      by_cases hqp : q = p
      · rw [hqp]
        exact hp
      · rcases hexit.state hqp with heq | ⟨-, heq⟩
        · exact heq.symm.trans hq
        · cases heq.symm.trans hq

/-! ## Runs -/

/-- Pids are the numbers of the processes as long as fewer than `2 ^ 31 - 1` have been created. -/
theorem Numbered.step_of_births (h : s.births < 2147483647 → Numbered s) (htable : TableInv s)
    (hstep : Steps s e t) (hbirths : t.births < 2147483647) : Numbered t := by
  have hother : (∀ p, e ≠ .fork p) → s.births ≤ t.births → Numbered t := by
    intro hne hle
    refine (h (by omega)).step htable hstep ?_
    cases e with
    | fork p => exact absurd rfl (hne p)
    | _ => trivial
  cases hstep with
  | idle => exact h hbirths
  | @fork p q hp hplace hq =>
      have hlt : s.births + 1 < 2147483647 := hbirths
      have hnum := h (by omega)
      refine hnum.step htable (.fork hp hplace hq) fun hmax => ?_
      have hnext := hnum.next
      rw [hmax] at hnext
      have hval : (BitVec.intMax 32).toInt = 2147483647 := by decide
      omega
  | _ => exact hother nofun le_rfl

/-- The invariant of runs on one processor. -/
structure CpuInv (s : Table) : Prop where
  table : TableInv s
  recorded : Recorded s
  numbered : s.births < 2147483647 → Numbered s
  parented : Parented s
  counted : Counted s
  running : OneRunning s

theorem cpuInv_boot : CpuInv Table.boot :=
  ⟨tableInv_boot, recorded_boot, fun _ => numbered_boot, parented_boot, counted_boot,
    oneRunning_boot⟩

theorem CpuInv.step (h : CpuInv s) (hstep : s.cpuStep e = some t) : CpuInv t := by
  obtain ⟨hcpu, hsteps⟩ := cpuStep_eq_some hstep
  exact ⟨h.table.step hsteps, h.recorded.step h.table hsteps,
    Numbered.step_of_births h.numbered h.table hsteps, h.parented.step h.table hsteps,
    h.counted.step h.table hsteps, h.running.step hcpu hsteps⟩

theorem CpuRun.inv {tr : List (Table × ProcEvent)} {s : Table} (hrun : CpuRun tr s) : CpuInv s :=
  Exec.invariant (P := CpuInv) (fun _ _ _ h hstep => h.step hstep) hrun cpuInv_boot

theorem CpuInv.wellFormed {s : Table} (h : CpuInv s) (hbirths : s.births < 2147483647) :
    WellFormed s := by
  have hnum := h.numbered hbirths
  refine ⟨fun q hq => ?_, fun q q' hq hq' heq => ?_, fun q hne hun hem => ?_, h.table.unused,
    h.running⟩
  · rw [hnum.pid q hq]
    exact_mod_cast h.counted q hq
  · rw [hnum.pid q hq, hnum.pid q' hq'] at heq
    exact h.recorded.distinct q q' hq hq' (Int.ofNat.inj heq)
  · obtain ⟨w, hw⟩ := Option.ne_none_iff_exists'.mp (h.parented q hne ⟨hun, hem⟩)
    obtain ⟨f, hf, hchild, -, hcreator⟩ := h.recorded.forked q hne ⟨hun, hem⟩
    have hlive := h.table.parent q w hw
    refine ⟨w, hw, hlive.started.1, hlive.started.2, ?_, ?_⟩
    · rcases hlive with hst | hst | hst <;> rw [hst] <;> exact ProcState.noConfusion
    · exact (hcreator w hw).imp_right fun heq => ⟨f, hf, hchild, heq.symm⟩

/-- **The process table is well formed** in every state of a run on one processor, as long as fewer
than `2 ^ 31 - 1` processes have been created. -/
theorem wellFormed_of_births {tr : List (Table × ProcEvent)} {s : Table} (hrun : CpuRun tr s)
    (hbirths : s.births < 2 ^ 31 - 1) : WellFormed s :=
  hrun.inv.wellFormed hbirths

/-- A run with a child that exits and is waited for. -/
theorem wellFormed_handoff : ∃ tr s, CpuRun tr s ∧ s.births = 2 ∧ WellFormed s := by
  have hrun : runAll Table.cpuStep Table.boot handoff = some _ := rfl
  have hexec := exec_of_runAll Table.cpuStep hrun
  exact ⟨_, _, hexec, rfl, wellFormed_of_births hexec (by decide)⟩

end Xv6.Ptable

import Xv6.Proc.Records

/-! # What `kill` reaches

A process is killed by a `kill` of its pid, or by a violation of its own, as long as two things do
not happen. `kill` does not look at the state of the entry it finds, and the pid of an entry that is
not used may be 0 or that of a child that `fork` has given up: the flag is then left for the next
process in the entry. And `fork` leaves the flag of a child that it gives up. -/

namespace Xv6.Ptable

open Lib

/-- What happens next, with violations. -/
inductive KillEvent
  | call (e : ProcEvent)
  /-- The process has touched an address outside its memory: `proc->killed = 1`, and it goes to
  `exit`. -/
  | violation (p : Entry)

/-- **The steps of the system with violations.** -/
def Table.killStep (s : Table) : KillEvent → Option Table
  | .call e => s.step e
  | .violation p =>
      if (s.proc p).state = .RUNNING then some (s.set p { s.proc p with killed := true }) else none

/-- The value that `kill` returns. -/
def Table.killValue (s : Table) (pid : Int) : Int := if (s.findPid pid).isSome then 0 else -1

/-- A run with violations from `userinit`. -/
abbrev KillRun (tr : List (Table × KillEvent)) (s : Table) : Prop :=
  Exec (StepOf Table.killStep) Table.boot tr s

/-- The process in the entry `q` of `s` was there in `t`. -/
structure SameProc (s t : Table) (q : Entry) : Prop where
  used : (t.proc q).state ≠ .UNUSED
  birth : (t.proc q).birth = (s.proc q).birth
  pid : (t.proc q).pid = (s.proc q).pid

/-- **The process has been killed**: in the run there was a `kill` of its pid, or a violation of its
own, while it existed. -/
def Doomed (tr : List (Table × KillEvent)) (s : Table) (q : Entry) : Prop :=
  ∃ x ∈ tr, SameProc s x.1 q ∧
    (x.2 = .call (.kill (s.proc q).pid) ∨ x.2 = .violation q)

/-- **The steps at which a flag is not left for a later process**: `kill` finds an entry in use, if
it finds any, and `fork` does not give up a child that has been killed. -/
def Clean (s : Table) : KillEvent → Prop
  | .call (.kill pid) => ∀ q, s.findPid pid = some q → (s.proc q).state ≠ .UNUSED
  | .call (.forkFail p) => ∀ q, (s.proc p).place = .fork q → (s.proc q).killed = false
  | _ => True

/-! ## What a step does to an entry -/

/-- What becomes of the process in an entry. -/
inductive Fate (x y : Proc) : Prop
  /-- It stays. -/
  | same (hstate : y.state = .UNUSED ↔ x.state = .UNUSED) (hkilled : y.killed = x.killed)
      (hbirth : y.birth = x.birth) (hpid : y.pid = x.pid)
  /-- There was none, and there is one now. -/
  | born (hunused : x.state = .UNUSED) (hkilled : y.killed = x.killed)
  /-- There is none now. -/
  | gone (hunused : y.state = .UNUSED) (hkilled : y.killed = false)

theorem Fate.refl (x : Proc) : Fate x x := .same .rfl rfl rfl rfl

@[simp] theorem woken_killed (x : Proc) (c : Chan) : (x.woken c).killed = x.killed := by
  unfold Proc.woken
  split <;> rfl

theorem exitEntry_killed (s : Table) (p q : Entry) : (s.exitEntry p q).killed = (s.proc q).killed := by
  unfold Table.exitEntry
  grind [woken_killed]

variable {s : Table} {x : Proc} {tr : List (Table × KillEvent)} {e : KillEvent}

/-- One entry changes. -/
theorem fate_set {p : Entry} (h : Fate (s.proc p) x) (r : Entry) :
    Fate (s.proc r) ((s.set p x).proc r) := by
  rw [set_proc]
  split
  · rename_i hr
    rw [hr]
    exact h
  · exact .refl _

/-- A running process changes an entry and goes on at another place. -/
theorem fate_moved {p q : Entry} {pl : Place} (h : Fate (s.proc q) x) (r : Entry) :
    Fate (s.proc r) (((s.set q x).set p (s.moved p pl)).proc r) := by
  rw [set_proc]
  split
  · rename_i hr
    rw [hr]
    exact .same .rfl rfl rfl rfl
  · exact fate_set h r

/-- A live process stays when it changes its state. -/
theorem fate_live {x y : Proc} {st : ProcState} (hx : x.state = st) (hst : st ≠ .UNUSED)
    (hy : y.state ≠ .UNUSED) (hkilled : y.killed = x.killed) (hbirth : y.birth = x.birth)
    (hpid : y.pid = x.pid) : Fate x y := by
  refine .same (iff_of_false hy ?_) hkilled hbirth hpid
  rw [hx]
  exact hst

/-- **What a step does to an entry**, `kill` apart. -/
theorem TableInv.fate {s t : Table} {e : ProcEvent} (htable : TableInv s) (h : Steps s e t)
    (hclean : Clean s (.call e)) (hkill : ∀ pid, e ≠ .kill pid) (r : Entry) :
    Fate (s.proc r) (t.proc r) := by
  cases h with
  | kill => exact absurd rfl (hkill _)
  | idle => exact .refl _
  | sched hp =>
      refine fate_set ?_ r
      exact fate_live hp nofun nofun rfl rfl rfl
  | yield hp =>
      refine fate_set ?_ r
      exact fate_live hp nofun nofun rfl rfl rfl
  | sleep hp =>
      refine fate_set ?_ r
      exact fate_live hp nofun nofun rfl rfl rfl
  | waitSleep hp hplace hno =>
      refine fate_set ?_ r
      exact fate_live hp nofun nofun rfl rfl rfl
  | wait hp hplace =>
      refine fate_set ?_ r
      exact .same .rfl rfl rfl rfl
  | giveUp hp =>
      refine fate_set ?_ r
      exact .same .rfl rfl rfl rfl
  | fork hp hplace hq =>
      refine fate_moved ?_ r
      exact .born hq rfl
  | forkFail hp hplace =>
      refine fate_moved ?_ r
      exact .gone rfl (hclean _ hplace)
  | forkParent hp hplace =>
      refine fate_moved ?_ r
      exact .same .rfl rfl rfl rfl
  | forkDone hp hplace =>
      refine fate_moved ?_ r
      exact fate_live (htable.forkReady _ _ hplace).1 nofun nofun rfl rfl rfl
  | reap hp hparent hq =>
      refine fate_moved ?_ r
      exact .gone rfl rfl
  | wakeup =>
      refine .same ?_ (woken_killed ..) (woken_birth ..) (woken_pid ..)
      show ((s.proc r).woken _).state = _ ↔ _
      rw [woken_state]
      split
      · rename_i hst
        rw [hst.1]
        exact iff_of_false nofun nofun
      · rfl
  | @exit p hp hinit =>
      have hexit := exited s p r
      refine .same ?_ (exitEntry_killed s p r) hexit.birth hexit.pid
      show (s.exitEntry p r).state = _ ↔ _
      by_cases hrp : r = p
      · rw [hexit.self hrp, hrp, hp]
        exact iff_of_false nofun nofun
      · rcases hexit.state hrp with heq | ⟨hst, heq⟩
        · rw [heq]
        · rw [heq, hst]
          exact iff_of_false nofun nofun

/-! ## Runs -/

/-- **The law of `kill`**: a process is killed only if it is doomed, `kill` succeeds exactly if there
is a process with the pid, and processes start without the flag. -/
structure KillLaw (tr : List (Table × KillEvent)) (s : Table) : Prop where
  target : ∀ q, (s.proc q).state ≠ .UNUSED → (s.proc q).killed = true → Doomed tr s q
  value : ∀ x ∈ tr, ∀ pid, x.2 = .call (.kill pid) → (x.1.killValue pid = 0 ↔
    ∃ q, (x.1.proc q).state ≠ .UNUSED ∧ (x.1.proc q).pid = pid)
  start : ∀ x ∈ tr, ∀ p q, x.2 = .call (.fork p) → x.1.findUnused = some q →
    (x.1.embryo q).killed = false

/-- The invariant of runs in which no flag is left for a later process. -/
structure KillInv (tr : List (Table × KillEvent)) (s : Table) : Prop where
  table : TableInv s
  fresh : ∀ q, (s.proc q).state = .UNUSED → (s.proc q).killed = false
  law : KillLaw tr s

theorem killInv_boot : KillInv [] Table.boot := by
  have hkilled : ∀ q, (Table.boot.proc q).killed = false := by
    intro q
    show (if q = initproc then _ else _ : Proc).killed = _
    split <;> rfl
  refine ⟨tableInv_boot, fun q _ => hkilled q, fun q _ hk => ?_, nofun, nofun⟩
  cases (hkilled q).symm.trans hk

theorem findPid_eq_some {pid : Int} {q : Entry} (h : s.findPid pid = some q) :
    (s.proc q).pid = pid := by
  have := List.find?_some h
  simpa using this

/-- `kill` succeeds exactly if there is a process with the pid, unless it finds an entry that is not
used. -/
theorem killValue_iff {pid : Int} (hclean : Clean s (.call (.kill pid))) :
    s.killValue pid = 0 ↔ ∃ q, (s.proc q).state ≠ .UNUSED ∧ (s.proc q).pid = pid := by
  unfold Table.killValue
  cases hfind : s.findPid pid with
  | some q =>
      refine iff_of_true rfl ⟨q, hclean q hfind, findPid_eq_some hfind⟩
  | none =>
      refine iff_of_false (by simp) ?_
      rintro ⟨q, -, hq⟩
      have := List.find?_eq_none.mp hfind q (List.mem_finRange q)
      simp [hq] at this

/-- A process that has been killed stays so. -/
theorem Doomed.snoc {s t : Table} {q : Entry} (h : Doomed tr s q) (x : Table × KillEvent)
    (hbirth : (t.proc q).birth = (s.proc q).birth) (hpid : (t.proc q).pid = (s.proc q).pid) :
    Doomed (tr ++ [x]) t q := by
  obtain ⟨y, hy, hsame, hev⟩ := h
  refine ⟨y, List.mem_append_left _ hy, ⟨hsame.used, ?_, ?_⟩, ?_⟩
  · rw [hbirth, hsame.birth]
  · rw [hpid, hsame.pid]
  · rwa [hpid]

/-- The law for the events of a step. -/
theorem KillLaw.snoc {s t : Table} (h : KillInv tr s) (hclean : Clean s e)
    (htarget : ∀ q, (t.proc q).state ≠ .UNUSED → (t.proc q).killed = true →
      Doomed (tr ++ [(s, e)]) t q) : KillLaw (tr ++ [(s, e)]) t := by
  refine ⟨htarget, fun x hx pid he => ?_, fun x hx p q he hq => ?_⟩
  · rcases List.mem_append.mp hx with hx | hx
    · exact h.law.value x hx pid he
    · obtain rfl := List.mem_singleton.mp hx
      dsimp only at he
      subst he
      exact killValue_iff hclean
  · rcases List.mem_append.mp hx with hx | hx
    · exact h.law.start x hx p q he hq
    · obtain rfl := List.mem_singleton.mp hx
      exact h.fresh q (findUnused_eq_some hq)

/-- A step that sets no flag. -/
theorem KillInv.fate {s t : Table} (h : KillInv tr s) (hclean : Clean s e) (htable : TableInv t)
    (hfate : ∀ q, Fate (s.proc q) (t.proc q)) : KillInv (tr ++ [(s, e)]) t := by
  refine ⟨htable, fun q hq => ?_, .snoc h hclean fun q hq hk => ?_⟩
  · cases hfate q with
    | same hstate hkilled => rw [hkilled, h.fresh q (hstate.mp hq)]
    | born hunused hkilled => rw [hkilled, h.fresh q hunused]
    | gone hunused hkilled => exact hkilled
  · cases hfate q with
    | same hstate hkilled hbirth hpid =>
        rw [hkilled] at hk
        exact (h.law.target q (fun hun => hq (hstate.mpr hun)) hk).snoc _ hbirth hpid
    | born hunused hkilled =>
        rw [hkilled, h.fresh q hunused] at hk
        cases hk
    | gone hunused hkilled => exact absurd hunused hq

/-- A step that sets the flag of a process. -/
theorem KillInv.set {p : Entry} (h : KillInv tr s) (hclean : Clean s e)
    (htable : TableInv (s.set p x)) (hused : (s.proc p).state ≠ .UNUSED) (hx : x.state ≠ .UNUSED)
    (hbirth : x.birth = (s.proc p).birth) (hpid : x.pid = (s.proc p).pid)
    (he : e = .call (.kill (s.proc p).pid) ∨ e = .violation p) :
    KillInv (tr ++ [(s, e)]) (s.set p x) := by
  refine ⟨htable, fun q hq => ?_, .snoc h hclean fun q hq hk => ?_⟩
  · rw [set_proc] at hq ⊢
    split at hq
    · exact absurd hq hx
    · rename_i hqp
      rw [if_neg hqp]
      exact h.fresh q hq
  · by_cases hqp : q = p
    · have hself : (s.set p x).proc q = x := by rw [set_proc, if_pos hqp]
      refine ⟨(s, e), List.mem_append_right _ (List.mem_singleton_self _), ⟨?_, ?_, ?_⟩, ?_⟩
      · rw [hqp]
        exact hused
      · rw [hself, hbirth, hqp]
      · rw [hself, hpid, hqp]
      · rw [hself, hpid, hqp]
        exact he
    · have hother : (s.set p x).proc q = s.proc q := by rw [set_proc, if_neg hqp]
      rw [hother] at hq hk
      exact (h.law.target q hq hk).snoc _ (by rw [hother]) (by rw [hother])

theorem Proc.kill_state_ne (h : x.state ≠ .UNUSED) : x.kill.state ≠ .UNUSED := by
  unfold Proc.kill
  dsimp only
  split
  · exact nofun
  · exact h

theorem KillInv.step {s t : Table} (h : KillInv tr s) (hclean : Clean s e)
    (hstep : s.killStep e = some t) :
    KillInv (tr ++ [(s, e)]) t := by
  cases e with
  | violation p =>
      rw [Table.killStep] at hstep
      split at hstep
      · rename_i hp
        obtain rfl := Option.some.inj hstep
        have hused : (s.proc p).state ≠ .UNUSED := by
          rw [hp]
          exact nofun
        refine h.set hclean ?_ hused hused rfl rfl (.inr rfl)
        refine h.table.set_live rfl rfl (.inl rfl) fun hst => ?_
        cases hp.symm.trans hst
      · cases hstep
  | call e =>
      have hsteps := steps_of_step hstep
      have htable := h.table.step hsteps
      by_cases hkill : ∃ pid, e = .kill pid
      · obtain ⟨pid, rfl⟩ := hkill
        have ht : s.kill pid = t := Option.some.inj hstep
        subst ht
        unfold Table.kill at htable ⊢
        cases hfind : s.findPid pid with
        | none => exact h.fate hclean h.table fun q => .refl _
        | some q =>
            rw [hfind] at htable
            have hused := hclean q hfind
            refine h.set hclean htable hused (Proc.kill_state_ne hused) rfl rfl (.inl ?_)
            rw [findPid_eq_some hfind]
      · exact h.fate hclean htable (h.table.fate hsteps hclean fun pid he => hkill ⟨pid, he⟩)

/-- **`kill` affects only its target**, in every run in which `kill` never finds an entry that is not
used and `fork` never gives up a child that has been killed. -/
theorem kill_reaches_target {tr : List (Table × KillEvent)} {s : Table} (hrun : KillRun tr s)
    (hclean : ∀ x ∈ tr, Clean x.1 x.2) : KillLaw tr s := by
  have hinv : KillInv tr s := by
    induction hrun with
    | nil => exact killInv_boot
    | snoc hrun hstep ih =>
        refine KillInv.step (ih fun x hx => hclean x (List.mem_append_left _ hx)) ?_ hstep
        exact hclean _ (List.mem_append_right _ (List.mem_singleton_self _))
  exact hinv.law

/-! ## Runs on fixed events -/

/-- `Clean`, to be computed. -/
def clean (s : Table) : KillEvent → Bool
  | .call (.kill pid) => (s.findPid pid).all fun q => (s.proc q).state ≠ .UNUSED
  | .call (.forkFail p) => ((s.proc p).place.child).all fun q => !(s.proc q).killed
  | _ => true

theorem Clean.of_clean (h : clean s e = true) : Clean s e := by
  cases e with
  | violation p => trivial
  | call e =>
      cases e with
      | kill pid =>
          intro q hq
          rw [clean, hq] at h
          exact of_decide_eq_true h
      | forkFail p =>
          intro q hq
          rw [clean, hq] at h
          simpa [Place.child] using h
      | _ => trivial

/-- `initproc` makes a child and kills it, and the child exits. -/
def killChild : List KillEvent :=
  [.call (.sched initproc), .call (.fork initproc), .call (.forkParent initproc),
    .call (.forkDone initproc), .call (.kill 2), .call (.yield initproc),
    .call (.sched firstChild), .call (.exit firstChild)]

/-- A child that has been killed. -/
theorem kill_reaches_child :
    ∃ tr s, KillRun tr s ∧ (s.proc firstChild).killed = true ∧ KillLaw tr s := by
  have hrun : runAll Table.killStep Table.boot killChild = some _ := rfl
  have hclean : (traceAll Table.killStep Table.boot killChild).all (fun x => clean x.1 x.2) = true := by
    decide +kernel
  have hexec := exec_of_runAll Table.killStep hrun
  exact ⟨_, _, hexec, rfl, kill_reaches_target hexec fun x hx =>
    .of_clean (List.all_eq_true.mp hclean x hx)⟩

/-- `initproc` calls `kill(0)` and makes a child. -/
def killNobody : List KillEvent :=
  [.call (.sched initproc), .call (.kill 0), .call (.fork initproc), .call (.forkParent initproc),
    .call (.forkDone initproc)]

/-- **`kill(0)` succeeds without a target**, and the next child is born with the flag. -/
theorem kill_nobody :
    ∃ tr s, KillRun tr s ∧ (s.proc firstChild).state = .RUNNABLE ∧
      (s.proc firstChild).killed = true ∧ ¬ Doomed tr s firstChild ∧
      ∃ x ∈ tr, x.2 = .call (.kill 0) ∧ x.1.killValue 0 = 0 ∧
        ¬ ∃ q, (x.1.proc q).state ≠ .UNUSED ∧ (x.1.proc q).pid = 0 := by
  have hrun : runAll Table.killStep Table.boot killNobody = some _ := rfl
  have hexec := exec_of_runAll Table.killStep hrun
  refine ⟨_, _, hexec, rfl, rfl, ?_, ?_⟩
  · have hevents : (traceAll Table.killStep Table.boot killNobody).all (fun x =>
        match x.2 with
        | .call (.kill pid) => pid != 2
        | .call _ => true
        | .violation _ => false) = true := by decide +kernel
    rintro ⟨x, hx, -, hev⟩
    have hx' := List.all_eq_true.mp hevents x hx
    rcases hev with hev | hev
    · rw [hev] at hx'
      exact absurd rfl (bne_iff_ne.mp hx')
    · rw [hev] at hx'
      cases hx'
  · refine ⟨_, List.mem_cons_of_mem _ List.mem_cons_self, rfl, rfl, ?_⟩
    decide +kernel

end Xv6.Ptable

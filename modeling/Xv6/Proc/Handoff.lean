import Xv6.Proc.Table

/-! # The process table stays in order

In every state of a run parents are live processes, a child in the making belongs to one `fork`, and
no process sleeps in `wait` while it has a zombie child. -/

namespace Xv6.Ptable

open Lib

/-- The process has been started and has not exited. -/
def Live (st : ProcState) : Prop := st = .RUNNABLE ∨ st = .RUNNING ∨ st = .SLEEPING

/-- The child that a process in `fork` is making. -/
def Place.child : Place → Option Entry
  | .fork q | .forkReady q => some q
  | _ => none

/-- **The invariant of the process table.** -/
structure TableInv (s : Table) : Prop where
  init : Live (s.proc initproc).state
  initParent : (s.proc initproc).parent = none
  notSelf : ∀ q, (s.proc q).parent ≠ some q
  unused : ∀ q, (s.proc q).state = .UNUSED → (s.proc q).parent = none
  /-- A child in the making belongs to one `fork`. -/
  forker : ∀ p p' q, (s.proc p).place.child = some q → (s.proc p').place.child = some q → p = p'
  making : ∀ p, (s.proc p).place.child ≠ none → Live (s.proc p).state
  fork : ∀ p q, (s.proc p).place = .fork q →
    (s.proc q).state = .EMBRYO ∧ (s.proc q).parent = none
  forkReady : ∀ p q, (s.proc p).place = .forkReady q →
    (s.proc q).state = .EMBRYO ∧ (s.proc q).parent = some p
  parent : ∀ q w, (s.proc q).parent = some w → Live (s.proc w).state
  /-- No process sleeps in `wait` while it has a zombie child. -/
  wait : ∀ p q, (s.proc p).state = .SLEEPING → (s.proc p).chan = some (.proc p) →
    (s.proc q).parent = some p → (s.proc q).state ≠ .ZOMBIE

/-- What the steps do to the table. -/
inductive Steps (s : Table) : ProcEvent → Table → Prop
  | sched {p : Entry} (hp : (s.proc p).state = .RUNNABLE) :
      Steps s (.sched p) (s.set p { s.proc p with state := .RUNNING, chan := none })
  | wakeup {n : Nat} : Steps s (.wakeup n) { s with proc := fun q => (s.proc q).woken (.other n) }
  | kill {pid : Int} {q : Entry} :
      Steps s (.kill pid) (s.set q (s.proc q).kill)
  | idle {e : ProcEvent} : Steps s e s
  | yield {p : Entry} (hp : (s.proc p).state = .RUNNING) :
      Steps s (.yield p) (s.set p { s.proc p with state := .RUNNABLE })
  | sleep {p : Entry} {n : Nat} (hp : (s.proc p).state = .RUNNING) :
      Steps s (.sleep p n) (s.set p { s.proc p with state := .SLEEPING, chan := some (.other n) })
  | fork {p q : Entry} (hp : (s.proc p).state = .RUNNING) (hplace : (s.proc p).place = .user)
      (hq : (s.proc q).state = .UNUSED) :
      Steps s (.fork p) { (s.set q (s.embryo q)).set p (s.moved p (.fork q)) with
        nextpid := s.nextpid + 1#32, births := s.births + 1 }
  | forkFail {p q : Entry} (hp : (s.proc p).state = .RUNNING) (hplace : (s.proc p).place = .fork q) :
      Steps s (.forkFail p) ((s.set q { s.proc q with state := .UNUSED }).set p (s.moved p .user))
  | forkParent {p q : Entry} (hp : (s.proc p).state = .RUNNING)
      (hplace : (s.proc p).place = .fork q) :
      Steps s (.forkParent p)
        ((s.set q { s.proc q with parent := some p }).set p (s.moved p (.forkReady q)))
  | forkDone {p q : Entry} (hp : (s.proc p).state = .RUNNING)
      (hplace : (s.proc p).place = .forkReady q) :
      Steps s (.forkDone p)
        { (s.set q { s.proc q with state := .RUNNABLE }).set p (s.moved p .user) with
          forks := s.forks ++ [s.forkRecord p q] }
  | wait {p : Entry} (hp : (s.proc p).state = .RUNNING) (hplace : (s.proc p).place = .user) :
      Steps s (.wait p) (s.set p (s.moved p .wait))
  | reap {p q : Entry} (hp : (s.proc p).state = .RUNNING) (hparent : (s.proc q).parent = some p)
      (hq : (s.proc q).state = .ZOMBIE) :
      Steps s (.scan p) { (s.set q (s.reaped q)).set p (s.moved p .user) with
        waits := s.waits ++ [s.waitRecord p q] }
  | giveUp {p : Entry} (hp : (s.proc p).state = .RUNNING) :
      Steps s (.scan p) (s.set p (s.moved p .user))
  | waitSleep {p : Entry} (hp : (s.proc p).state = .RUNNING) (hplace : (s.proc p).place = .wait)
      (hno : ∀ q, (s.proc q).parent = some p → (s.proc q).state ≠ .ZOMBIE) :
      Steps s (.scan p) (s.set p { s.proc p with state := .SLEEPING, chan := some (.proc p) })
  | exit {p : Entry} (hp : (s.proc p).state = .RUNNING) (hinit : p ≠ initproc) :
      Steps s (.exit p) { s with proc := s.exitEntry p }

variable {s : Table} {p q : Entry}

theorem zombieChild_eq_some (h : s.zombieChild p = some q) :
    (s.proc q).parent = some p ∧ (s.proc q).state = .ZOMBIE := by
  have := List.find?_some h
  simpa using this

theorem zombieChild_eq_none {p : Entry} (h : s.zombieChild p = none) (q : Entry)
    (hq : (s.proc q).parent = some p) : (s.proc q).state ≠ .ZOMBIE := by
  have := List.find?_eq_none.mp h q (List.mem_finRange q)
  simpa [hq] using this

theorem findUnused_eq_some {q : Entry} (h : s.findUnused = some q) :
    (s.proc q).state = .UNUSED := by
  have := List.find?_some h
  simpa using this

theorem steps_of_step {s t : Table} {e : ProcEvent} (h : s.step e = some t) : Steps s e t := by
  cases e with
  | sched p =>
      rw [Table.step] at h
      split at h
      · rename_i hp
        obtain rfl := Option.some.inj h
        exact .sched hp
      · cases h
  | yield p =>
      rw [Table.step] at h
      split at h
      · rename_i hp
        obtain rfl := Option.some.inj h
        exact .yield hp
      · cases h
  | sleep p n =>
      rw [Table.step] at h
      split at h
      · rename_i hp
        obtain rfl := Option.some.inj h
        exact .sleep hp
      · cases h
  | wakeup n =>
      obtain rfl := Option.some.inj h
      exact .wakeup
  | fork p =>
      rw [Table.step] at h
      split at h
      · rename_i hp
        split at h
        · rename_i q hq
          obtain rfl := Option.some.inj h
          exact .fork hp.1 hp.2 (findUnused_eq_some hq)
        · obtain rfl := Option.some.inj h
          exact .idle
      · cases h
  | forkFail p =>
      rw [Table.step] at h
      split at h
      · rename_i hp
        split at h
        · rename_i q hplace
          obtain rfl := Option.some.inj h
          exact .forkFail hp hplace
        · cases h
      · cases h
  | forkParent p =>
      rw [Table.step] at h
      split at h
      · rename_i hp
        split at h
        · rename_i q hplace
          obtain rfl := Option.some.inj h
          exact .forkParent hp hplace
        · cases h
      · cases h
  | forkDone p =>
      rw [Table.step] at h
      split at h
      · rename_i hp
        split at h
        · rename_i q hplace
          obtain rfl := Option.some.inj h
          exact .forkDone hp hplace
        · cases h
      · cases h
  | wait p =>
      rw [Table.step] at h
      split at h
      · rename_i hp
        obtain rfl := Option.some.inj h
        exact .wait hp.1 hp.2
      · cases h
  | scan p =>
      rw [Table.step] at h
      split at h
      · rename_i hp
        obtain rfl := Option.some.inj h
        unfold Table.scan
        split
        · rename_i q hq
          obtain ⟨hparent, hzombie⟩ := zombieChild_eq_some hq
          exact .reap hp.1 hparent hzombie
        · rename_i hnone
          split
          · exact .giveUp hp.1
          · exact .waitSleep hp.1 hp.2 (zombieChild_eq_none hnone)
      · cases h
  | exit p =>
      rw [Table.step] at h
      split at h
      · rename_i hp
        obtain rfl := Option.some.inj h
        exact .exit hp.1 hp.2
      · cases h
  | kill pid =>
      obtain rfl := Option.some.inj h
      unfold Table.kill
      split
      · exact .kill
      · exact .idle

/-! ## The section of `exit` -/

@[simp] theorem woken_parent (x : Proc) (c : Chan) : (x.woken c).parent = x.parent := by
  unfold Proc.woken
  split <;> rfl

@[simp] theorem woken_place (x : Proc) (c : Chan) : (x.woken c).place = x.place := by
  unfold Proc.woken
  split <;> rfl

@[simp] theorem woken_chan (x : Proc) (c : Chan) : (x.woken c).chan = x.chan := by
  unfold Proc.woken
  split <;> rfl

@[simp] theorem woken_pid (x : Proc) (c : Chan) : (x.woken c).pid = x.pid := by
  unfold Proc.woken
  split <;> rfl

@[simp] theorem woken_birth (x : Proc) (c : Chan) : (x.woken c).birth = x.birth := by
  unfold Proc.woken
  split <;> rfl

theorem woken_state (x : Proc) (c : Chan) :
    (x.woken c).state = if x.state = .SLEEPING ∧ x.chan = some c then .RUNNABLE else x.state := by
  unfold Proc.woken
  split <;> rfl

/-- What the section of `exit` by `p` does to an entry `q`. -/
structure Exited (s : Table) (p q : Entry) (x : Proc) : Prop where
  pid : x.pid = (s.proc q).pid
  birth : x.birth = (s.proc q).birth
  chan : x.chan = (s.proc q).chan
  parent : x.parent = if (s.proc q).parent = some p then some initproc else (s.proc q).parent
  place : x.place = if q = p then .user else (s.proc q).place
  self : q = p → x.state = .ZOMBIE
  /-- Processes that sleep may be woken up. -/
  state : q ≠ p → x.state = (s.proc q).state ∨
    (s.proc q).state = .SLEEPING ∧ x.state = .RUNNABLE
  /-- The parent is. -/
  woken : q ≠ p → (s.proc p).parent = some q → (s.proc q).chan = some (.proc q) →
    x.state ≠ .SLEEPING
  /-- So is `initproc`, if it gets a zombie. -/
  init : q ≠ p → q = initproc → (∃ z, (s.proc z).parent = some p ∧ (s.proc z).state = .ZOMBIE) →
    (s.proc q).chan = some (.proc q) → x.state ≠ .SLEEPING

theorem exited (s : Table) (p q : Entry) : Exited s p q (s.exitEntry p q) := by
  have hzombie : (∃ z, (s.proc z).parent = some p ∧ (s.proc z).state = .ZOMBIE) →
      (s.zombieChild p).isSome = true := by
    rintro ⟨z, hz, hst⟩
    by_contra hnone
    rw [Option.not_isSome_iff_eq_none] at hnone
    exact zombieChild_eq_none hnone z hz hst
  unfold Table.exitEntry
  constructor <;> grind [woken_state, woken_parent, woken_place, woken_chan, woken_pid, woken_birth]

/-! ## The table -/

theorem tableInv_boot : TableInv Table.boot := by
  have hother : ∀ q, q ≠ initproc → Table.boot.proc q = ⟨.UNUSED, 0, none, false, none, .user, 0⟩ :=
    fun q hq => if_neg hq
  have hinit : Table.boot.proc initproc = ⟨.RUNNABLE, 1, none, false, none, .user, 1⟩ := rfl
  constructor <;> grind [Live, Place.child]

theorem set_proc (s : Table) (p : Entry) (x : Proc) (q : Entry) :
    (s.set p x).proc q = if q = p then x else s.proc q :=
  Function.update_apply ..

/-- Processes are woken up. -/
theorem TableInv.wake {s t : Table} (h : TableInv s)
    (hparent : ∀ q, (t.proc q).parent = (s.proc q).parent)
    (hplace : ∀ q, (t.proc q).place = (s.proc q).place)
    (hchan : ∀ q, (t.proc q).chan = (s.proc q).chan)
    (hstate : ∀ q, (t.proc q).state = (s.proc q).state ∨
      (s.proc q).state = .SLEEPING ∧ (t.proc q).state = .RUNNABLE) : TableInv t := by
  obtain ⟨hinit, hroot, hself, hunused, hforker, hmaking, hfork, hready, hpar, hwait⟩ := h
  constructor <;> grind [Live]

/-- A process changes its state between those of a live process. -/
theorem TableInv.set_live (h : TableInv s) {p : Entry} {x : Proc}
    (hparent : x.parent = (s.proc p).parent) (hplace : x.place = (s.proc p).place)
    (hstate : x.state = (s.proc p).state ∨ Live (s.proc p).state ∧ Live x.state)
    (hsleep : x.state = .SLEEPING → x.chan = some (.proc p) → ∀ q, (s.proc q).parent = some p →
      (s.proc q).state ≠ .ZOMBIE) : TableInv (s.set p x) := by
  obtain ⟨hinit, hroot, hself, hunused, hforker, hmaking, hfork, hready, hpar, hwait⟩ := h
  constructor <;> simp only [set_proc] <;> grind [Live]

/-- A process goes on at another place. -/
theorem TableInv.set_place (h : TableInv s) {p : Entry} {pl : Place}
    (hlive : pl.child ≠ none → Live (s.proc p).state)
    (hchild : ∀ q, pl.child = some q → ∀ p', (s.proc p').place.child ≠ some q)
    (hfork : ∀ q, pl = .fork q → (s.proc q).state = .EMBRYO ∧ (s.proc q).parent = none)
    (hready : ∀ q, pl = .forkReady q → (s.proc q).state = .EMBRYO ∧ (s.proc q).parent = some p) :
    TableInv (s.set p (s.moved p pl)) := by
  obtain ⟨hinit, hroot, hself, hunused, hforker, hmaking, hfork', hready', hpar, hwait⟩ := h
  constructor <;> simp only [set_proc, Table.moved] <;> grind

/-- An entry that is neither a live process nor a child in the making changes. -/
theorem TableInv.set_idle (h : TableInv s) {q : Entry} {x : Proc}
    (hnone : ∀ p, (s.proc p).place.child ≠ some q) (hdead : ¬ Live (s.proc q).state)
    (hunused : x.state = .UNUSED → x.parent = none)
    (hparent : ∀ w, x.parent = some w → Live (s.proc w).state)
    (hstate : x.state ≠ .ZOMBIE ∧ x.state ≠ .SLEEPING) (hplace : x.place.child = none) :
    TableInv (s.set q x) := by
  obtain ⟨hinit, hroot, hself, hunused', hforker, hmaking, hfork, hready, hpar, hwait⟩ := h
  have hchild : ∀ p q', (s.proc p).place = .fork q' ∨ (s.proc p).place = .forkReady q' →
      (s.proc p).place.child = some q' := by
    rintro p q' (hp | hp) <;> rw [hp] <;> rfl
  have hx : ∀ q', x.place ≠ .fork q' ∧ x.place ≠ .forkReady q' := by
    intro q'
    constructor <;> intro hp <;> rw [hp] at hplace <;> cases hplace
  constructor <;> simp only [set_proc] <;> grind

theorem TableInv.of_proc {s t : Table} (h : TableInv s) (hproc : ∀ q, t.proc q = s.proc q) :
    TableInv t := by
  obtain ⟨hinit, hroot, hself, hunused, hforker, hmaking, hfork, hready, hpar, hwait⟩ := h
  constructor <;> simp only [hproc] <;> assumption

/-- **`exit`**: the parent is woken up, and the children get a live parent. -/
theorem TableInv.exit {s t : Table} {p : Entry} (h : TableInv s)
    (hp : (s.proc p).state = .RUNNING) (hne : p ≠ initproc)
    (hexit : ∀ q, Exited s p q (t.proc q)) : TableInv t := by
  obtain ⟨hinit, hroot, hself, hunused, hforker, hmaking, hfork, hready, hpar, hwait⟩ := h
  have hlive : ∀ q, q ≠ p → Live (s.proc q).state → Live (t.proc q).state := by
    intro q hq hl
    rcases (hexit q).state hq with heq | ⟨-, heq⟩
    · rw [heq]
      exact hl
    · rw [heq]
      exact .inl rfl
  constructor
  · exact hlive initproc hne.symm hinit
  · rw [(hexit initproc).parent, hroot]
    rfl
  · intro q hq
    rw [(hexit q).parent] at hq
    split at hq
    · rename_i hpq
      rw [← Option.some.inj hq, hroot] at hpq
      cases hpq
    · exact hself q hq
  · intro q hq
    have hqp : q ≠ p := by
      rintro rfl
      rw [(hexit q).self rfl] at hq
      cases hq
    have hst : (s.proc q).state = .UNUSED := by
      rcases (hexit q).state hqp with heq | ⟨-, heq⟩
      · exact heq.symm.trans hq
      · rw [heq] at hq
        cases hq
    rw [(hexit q).parent, hunused q hst]
    rfl
  · intro p₁ p₂ q h₁ h₂
    rw [(hexit p₁).place] at h₁
    rw [(hexit p₂).place] at h₂
    split at h₁
    · cases h₁
    · split at h₂
      · cases h₂
      · exact hforker p₁ p₂ q h₁ h₂
  · intro p₁ h₁
    rw [(hexit p₁).place] at h₁
    split at h₁
    · exact absurd rfl h₁
    · rename_i hp₁
      exact hlive p₁ hp₁ (hmaking p₁ h₁)
  · intro p₁ q hplace
    rw [(hexit p₁).place] at hplace
    split at hplace
    · cases hplace
    · obtain ⟨hst, hq⟩ := hfork p₁ q hplace
      have hqp : q ≠ p := by
        rintro rfl
        rw [hst] at hp
        cases hp
      rw [(hexit q).parent, hq]
      refine ⟨?_, rfl⟩
      rcases (hexit q).state hqp with heq | ⟨heq, -⟩
      · exact heq.trans hst
      · rw [hst] at heq
        cases heq
  · intro p₁ q hplace
    rw [(hexit p₁).place] at hplace
    split at hplace
    · cases hplace
    · rename_i hp₁
      obtain ⟨hst, hq⟩ := hready p₁ q hplace
      have hqp : q ≠ p := by
        rintro rfl
        rw [hst] at hp
        cases hp
      rw [(hexit q).parent, hq, if_neg fun heq => hp₁ (Option.some.inj heq)]
      refine ⟨?_, rfl⟩
      rcases (hexit q).state hqp with heq | ⟨heq, -⟩
      · exact heq.trans hst
      · rw [hst] at heq
        cases heq
  · intro q w hw
    rw [(hexit q).parent] at hw
    split at hw
    · obtain rfl := Option.some.inj hw
      exact hlive initproc hne.symm hinit
    · rename_i hpq
      refine hlive w ?_ (hpar q w hw)
      rintro rfl
      exact hpq hw
  · -- a zombie child of a process is an old one, `p` itself, or one passed on by `p`
    intro p₁ q hst hchan hq hz
    have hp₁ : p₁ ≠ p := by
      rintro rfl
      rw [(hexit p₁).self rfl] at hst
      cases hst
    rw [(hexit p₁).chan] at hchan
    have hst₀ : (s.proc p₁).state = .SLEEPING := by
      rcases (hexit p₁).state hp₁ with heq | ⟨heq, -⟩
      · exact heq.symm.trans hst
      · exact heq
    rw [(hexit q).parent] at hq
    by_cases hqp : q = p
    · subst hqp
      rw [if_neg (hself q)] at hq
      exact (hexit p₁).woken hp₁ hq hchan hst
    · have hz₀ : (s.proc q).state = .ZOMBIE := by
        rcases (hexit q).state hqp with heq | ⟨-, heq⟩
        · exact heq.symm.trans hz
        · rw [heq] at hz
          cases hz
      split at hq
      · rename_i hpq
        exact (hexit p₁).init hp₁ (Option.some.inj hq).symm ⟨q, hpq, hz₀⟩ hchan hst
      · exact hwait p₁ q hst₀ hchan hq hz₀

theorem Live.of_running {st : ProcState} (h : st = .RUNNING) : Live st := .inr (.inl h)

theorem not_live_unused : ¬ Live .UNUSED := by
  rintro (h | h | h) <;> cases h

theorem not_live_embryo : ¬ Live .EMBRYO := by
  rintro (h | h | h) <;> cases h

/-- An embryo makes no child. -/
theorem TableInv.place_embryo (h : TableInv s) {q : Entry} (hq : (s.proc q).state = .EMBRYO) :
    (s.proc q).place.child = none := by
  by_contra hc
  have := h.making q hc
  rw [hq] at this
  exact not_live_embryo this

/-- Nobody is making a child out of an entry that is not an embryo. -/
theorem TableInv.child_ne (h : TableInv s) {q : Entry} (hq : (s.proc q).state ≠ .EMBRYO)
    (p : Entry) : (s.proc p).place.child ≠ some q := by
  intro hp
  cases hpl : (s.proc p).place with
  | fork q' =>
      rw [hpl] at hp
      obtain rfl := Option.some.inj hp
      exact hq (h.fork p q' hpl).1
  | forkReady q' =>
      rw [hpl] at hp
      obtain rfl := Option.some.inj hp
      exact hq (h.forkReady p q' hpl).1
  | _ =>
      rw [hpl] at hp
      cases hp

/-- When a process leaves its `fork`, nobody is making its child any more. -/
theorem TableInv.child_ne_of_move (h : TableInv s) {pl : Place}
    (hplace : (s.proc p).place.child = some q) (hpl : pl.child = none) (p' : Entry) :
    ((s.set p (s.moved p pl)).proc p').place.child ≠ some q := by
  rw [set_proc]
  split
  · intro heq
    rw [show (s.moved p pl).place = pl from rfl, hpl] at heq
    cases heq
  · rename_i hne
    exact fun heq => hne (h.forker p' p q heq hplace)

theorem moved_set (h : p ≠ q) (x : Proc) (pl : Place) : (s.set q x).moved p pl = s.moved p pl := by
  rw [Table.moved, set_proc, if_neg h]
  rfl

theorem set_set (h : p ≠ q) (x y : Proc) : (s.set q x).set p y = (s.set p y).set q x := by
  unfold Table.set
  rw [Function.update_comm h]

/-- **Every step keeps the table in order.** -/
theorem TableInv.step {s t : Table} {e : ProcEvent} (h : TableInv s) (hstep : Steps s e t) :
    TableInv t := by
  -- the process leaves its call
  have hback : ∀ p, TableInv (s.set p (s.moved p .user)) := fun p =>
    h.set_place (fun hq => absurd rfl hq) (fun q hq => nomatch hq) (fun q hq => nomatch hq)
      fun q hq => nomatch hq
  have hne : ∀ {p q : Entry}, (s.proc p).state = .RUNNING → (s.proc q).state ≠ .RUNNING → q ≠ p := by
    rintro p q hp hq rfl
    exact hq hp
  cases hstep with
  | idle => exact h
  | sched hp =>
      exact h.set_live rfl rfl (.inr ⟨.inl hp, .inr (.inl rfl)⟩) fun hst => nomatch hst
  | wakeup =>
      refine h.wake (fun q => woken_parent ..) (fun q => woken_place ..) (fun q => woken_chan ..)
        fun q => ?_
      show ((s.proc q).woken _).state = _ ∨ _ ∧ ((s.proc q).woken _).state = _
      rw [woken_state]
      split
      · rename_i hq
        exact .inr ⟨hq.1, rfl⟩
      · exact .inl rfl
  | @kill pid q =>
      by_cases hst : (s.proc q).state = .SLEEPING
      · have hx : (s.proc q).kill.state = .RUNNABLE := if_pos hst
        refine h.set_live rfl rfl (.inr ⟨.inr (.inr hst), .inl hx⟩) fun hsl => ?_
        cases hx.symm.trans hsl
      · have hx : (s.proc q).kill.state = (s.proc q).state := if_neg hst
        exact h.set_live rfl rfl (.inl hx) fun hsl => absurd (hx.symm.trans hsl) hst
  | yield hp =>
      exact h.set_live rfl rfl (.inr ⟨.of_running hp, .inl rfl⟩) fun hst => nomatch hst
  | sleep hp =>
      exact h.set_live rfl rfl (.inr ⟨.of_running hp, .inr (.inr rfl)⟩)
        fun _ hchan => nomatch hchan
  | wait hp hplace =>
      exact h.set_place (fun hq => absurd rfl hq) (fun q hq => nomatch hq) (fun q hq => nomatch hq)
        fun q hq => nomatch hq
  | giveUp hp => exact hback _
  | waitSleep hp hplace hno =>
      exact h.set_live rfl rfl (.inr ⟨.of_running hp, .inr (.inr rfl)⟩) fun _ _ => hno
  | exit hp hinit => exact h.exit hp hinit fun q => exited s _ q
  | @fork p q hp hplace hq =>
      have hqp : q ≠ p := hne hp (by rw [hq]; exact ProcState.noConfusion)
      have hchild := h.child_ne (q := q) (by rw [hq]; exact ProcState.noConfusion)
      have hnew : TableInv (s.set q (s.embryo q)) := by
        refine h.set_idle hchild ?_ (fun hst => nomatch hst) (h.parent q)
          ⟨ProcState.noConfusion, ProcState.noConfusion⟩ rfl
        rw [hq]
        exact not_live_unused
      have hself : (s.set q (s.embryo q)).proc q = s.embryo q := by rw [set_proc, if_pos rfl]
      have hfork : TableInv ((s.set q (s.embryo q)).set p
          ((s.set q (s.embryo q)).moved p (.fork q))) := by
        refine hnew.set_place (fun _ => ?_) (fun q' hq' p' => ?_) (fun q' hq' => ?_)
          fun q' hq' => (nomatch hq')
        · rw [set_proc, if_neg hqp.symm]
          exact .of_running hp
        · obtain rfl := Option.some.inj hq'
          rw [set_proc]
          split
          · exact nofun
          · exact hchild p'
        · obtain rfl := Place.fork.inj hq'
          rw [hself]
          exact ⟨rfl, h.unused q hq⟩
      rw [moved_set hqp.symm] at hfork
      exact hfork.of_proc fun _ => rfl
  | @forkFail p q hp hplace =>
      obtain ⟨hst, hpar⟩ := h.fork p q hplace
      have hqp : q ≠ p := hne hp (by rw [hst]; exact ProcState.noConfusion)
      rw [set_set hqp.symm]
      refine (hback p).set_idle (h.child_ne_of_move (by rw [hplace]; rfl) rfl) ?_ (fun _ => hpar)
        (fun w hw => ?_) ⟨ProcState.noConfusion, ProcState.noConfusion⟩ (h.place_embryo hst)
      · rw [set_proc, if_neg hqp, hst]
        exact not_live_embryo
      · cases hpar.symm.trans hw
  | @forkParent p q hp hplace =>
      obtain ⟨hst, hpar⟩ := h.fork p q hplace
      have hqp : q ≠ p := hne hp (by rw [hst]; exact ProcState.noConfusion)
      -- leave the call, change the child, and go back to the call
      have hfree : ∀ p', ((s.set p (s.moved p .user)).proc p').place.child ≠ some q :=
        h.child_ne_of_move (by rw [hplace]; rfl) rfl
      have hgiven : TableInv ((s.set p (s.moved p .user)).set q
          { s.proc q with parent := some p }) := by
        refine (hback p).set_idle hfree ?_ (fun hun => ?_) (fun w hw => ?_) ?_ (h.place_embryo hst)
        · rw [set_proc, if_neg hqp, hst]
          exact not_live_embryo
        · cases hst.symm.trans hun
        · obtain rfl := Option.some.inj hw
          rw [set_proc, if_pos rfl]
          exact .of_running hp
        · rw [show ({ s.proc q with parent := some p } : Proc).state = .EMBRYO from hst]
          exact ⟨ProcState.noConfusion, ProcState.noConfusion⟩
      have hready : TableInv (((s.set p (s.moved p .user)).set q
          { s.proc q with parent := some p }).set p
            (((s.set p (s.moved p .user)).set q { s.proc q with parent := some p }).moved p
              (.forkReady q))) := by
        refine hgiven.set_place (fun _ => ?_) (fun q' hq' p' => ?_) (fun q' hq' => (nomatch hq'))
          fun q' hq' => ?_
        · rw [set_proc, if_neg hqp.symm, set_proc, if_pos rfl]
          exact .of_running hp
        · obtain rfl := Option.some.inj hq'
          rw [set_proc]
          split
          · rw [show ({ s.proc q with parent := some p } : Proc).place = (s.proc q).place from rfl,
              h.place_embryo hst]
            exact nofun
          · exact hfree p'
        · obtain rfl := Place.forkReady.inj hq'
          rw [set_proc, if_pos rfl]
          exact ⟨hst, rfl⟩
      refine hready.of_proc fun x => ?_
      simp only [Table.moved, set_proc]
      by_cases hx : x = p
      · simp [hx, hqp.symm]
      · simp [hx]
  | @forkDone p q hp hplace =>
      obtain ⟨hst, hpar⟩ := h.forkReady p q hplace
      have hqp : q ≠ p := hne hp (by rw [hst]; exact ProcState.noConfusion)
      have hdone : TableInv ((s.set p (s.moved p .user)).set q
          { s.proc q with state := .RUNNABLE }) := by
        refine (hback p).set_idle (h.child_ne_of_move (by rw [hplace]; rfl) rfl) ?_
          (fun hun => nomatch hun) (fun w hw => ?_) ⟨ProcState.noConfusion, ProcState.noConfusion⟩
          (h.place_embryo hst)
        · rw [set_proc, if_neg hqp, hst]
          exact not_live_embryo
        · obtain rfl : p = w := Option.some.inj (hpar.symm.trans hw)
          rw [set_proc, if_pos rfl]
          exact .of_running hp
      rw [← set_set hqp.symm] at hdone
      exact hdone.of_proc fun _ => rfl
  | @reap p q hp hpar hq =>
      have hqp : q ≠ p := hne hp (by rw [hq]; exact ProcState.noConfusion)
      have hdead : ¬ Live (s.proc q).state := by
        rw [hq]
        rintro (hl | hl | hl) <;> cases hl
      have hreaped : TableInv ((s.set p (s.moved p .user)).set q (s.reaped q)) := by
        refine (hback p).set_idle (fun p' => ?_) ?_ (fun _ => rfl) (fun w hw => nomatch hw)
          ⟨ProcState.noConfusion, ProcState.noConfusion⟩ ?_
        · refine (hback p).child_ne ?_ p'
          rw [set_proc, if_neg hqp, hq]
          exact ProcState.noConfusion
        · rwa [set_proc, if_neg hqp]
        · by_contra hc
          exact hdead (h.making q hc)
      rw [← set_set hqp.symm] at hreaped
      exact hreaped.of_proc fun _ => rfl

end Xv6.Ptable

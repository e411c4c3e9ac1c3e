import Xv6.Proc.Handoff

/-! # The hand-off from `exit` to `wait`

Every child is handed to one `wait` of its parent. The pids that `wait` returns differ as long as
`nextpid` does not wrap around. -/

namespace Xv6.Ptable

open Lib

/-- The process has been started. -/
def Started (st : ProcState) : Prop := st ≠ .UNUSED ∧ st ≠ .EMBRYO

/-- **A return of `wait` is in order**: the child was a zombie, the caller was its parent, and the
value is the one that `fork` returned to the process that created the child; the caller is that
process or `initproc`. -/
def Handed (forks : List ForkRecord) (w : WaitRecord) : Prop :=
  w.state = .ZOMBIE ∧ w.parent = some w.caller ∧
    ∃ f ∈ forks, f.child = w.child ∧ f.value = w.value ∧
      (w.caller = initproc ∨ w.callerBirth = f.creator)

/-- **The invariant of the records.** -/
structure Recorded (s : Table) : Prop where
  le : ∀ q, (s.proc q).state ≠ .UNUSED → (s.proc q).birth ≤ s.births
  distinct : ∀ q q', (s.proc q).state ≠ .UNUSED → (s.proc q').state ≠ .UNUSED →
    (s.proc q).birth = (s.proc q').birth → q = q'
  forked : ∀ q, q ≠ initproc → Started (s.proc q).state →
    ∃ f ∈ s.forks, f.child = (s.proc q).birth ∧ f.value = (s.proc q).pid ∧
      ∀ w, (s.proc q).parent = some w → w = initproc ∨ (s.proc w).birth = f.creator
  waited : ∀ w ∈ s.waits, Handed s.forks w
  gone : ∀ w ∈ s.waits, w.child ≤ s.births ∧
    ∀ q, (s.proc q).state ≠ .UNUSED → (s.proc q).birth ≠ w.child
  once : (s.waits.map WaitRecord.child).Nodup

/-- As long as `nextpid` has not wrapped around, pids are the numbers of the processes. -/
structure Numbered (s : Table) : Prop where
  next : s.nextpid.toInt = s.births + 1
  pid : ∀ q, (s.proc q).state ≠ .UNUSED → (s.proc q).pid = (s.proc q).birth
  value : ∀ w ∈ s.waits, w.value = w.child

/-- The step begins and ends no process. -/
structure Kept (s t : Table) : Prop where
  births : t.births = s.births
  nextpid : t.nextpid = s.nextpid
  forks : t.forks = s.forks
  waits : t.waits = s.waits
  birth : ∀ q, (t.proc q).birth = (s.proc q).birth
  pid : ∀ q, (t.proc q).pid = (s.proc q).pid
  used : ∀ q, (t.proc q).state ≠ .UNUSED → (s.proc q).state ≠ .UNUSED
  started : ∀ q, Started (t.proc q).state → Started (s.proc q).state ∧
    ((t.proc q).parent = (s.proc q).parent ∨ (t.proc q).parent = some initproc)

variable {s t : Table} {e : ProcEvent}

theorem Recorded.keep (h : Recorded s) (hk : Kept s t) : Recorded t := by
  obtain ⟨hle, hdistinct, hforked, hwaited, hgone, honce⟩ := h
  obtain ⟨hbirths, -, hforks, hwaits, hbirth, hpid, hused, hstarted⟩ := hk
  refine ⟨fun q hq => ?_, fun q q' hq hq' heq => ?_, fun q hne hq => ?_, ?_, fun w hw => ?_, ?_⟩
  · rw [hbirth, hbirths]
    exact hle q (hused q hq)
  · rw [hbirth, hbirth] at heq
    exact hdistinct q q' (hused q hq) (hused q' hq') heq
  · obtain ⟨hst, hparent⟩ := hstarted q hq
    obtain ⟨f, hf, hchild, hvalue, hcreator⟩ := hforked q hne hst
    refine ⟨f, hforks ▸ hf, hchild.trans (hbirth q).symm, hvalue.trans (hpid q).symm, fun w hw => ?_⟩
    rcases hparent with heq | heq
    · rw [hbirth]
      exact hcreator w (heq.symm.trans hw)
    · exact .inl (Option.some.inj (hw.symm.trans heq))
  · rw [hforks, hwaits]
    exact hwaited
  · rw [hwaits] at hw
    rw [hbirths]
    refine ⟨(hgone w hw).1, fun q hq => ?_⟩
    rw [hbirth]
    exact (hgone w hw).2 q (hused q hq)
  · rw [hwaits]
    exact honce

theorem Numbered.keep (h : Numbered s) (hk : Kept s t) : Numbered t := by
  obtain ⟨hnext, hpid, hvalue⟩ := h
  refine ⟨?_, fun q hq => ?_, ?_⟩
  · rw [hk.nextpid, hk.births]
    exact hnext
  · rw [hk.pid, hk.birth]
    exact hpid q (hk.used q hq)
  · rw [hk.waits]
    exact hvalue

theorem Live.started {st : ProcState} (h : Live st) : Started st := by
  rcases h with rfl | rfl | rfl <;> exact ⟨ProcState.noConfusion, ProcState.noConfusion⟩

/-- One process changes in a step that begins and ends none. -/
theorem kept_set {s : Table} {p : Entry} {x : Proc} (hbirth : x.birth = (s.proc p).birth)
    (hpid : x.pid = (s.proc p).pid) (hused : x.state ≠ .UNUSED → (s.proc p).state ≠ .UNUSED)
    (hstarted : Started x.state → Started (s.proc p).state ∧
      (x.parent = (s.proc p).parent ∨ x.parent = some initproc)) : Kept s (s.set p x) := by
  refine ⟨rfl, rfl, rfl, rfl, fun q => ?_, fun q => ?_, fun q => ?_, fun q => ?_⟩ <;>
    rw [set_proc] <;> split
  · rename_i hq
    rw [hq, hbirth]
  · rfl
  · rename_i hq
    rw [hq, hpid]
  · rfl
  · rename_i hq
    rw [hq]
    exact hused
  · exact id
  · rename_i hq
    rw [hq]
    exact hstarted
  · exact fun hst => ⟨hst, .inl rfl⟩

theorem Kept.trans {s t u : Table} (h : Kept s t) (h' : Kept t u) : Kept s u where
  births := h'.births.trans h.births
  nextpid := h'.nextpid.trans h.nextpid
  forks := h'.forks.trans h.forks
  waits := h'.waits.trans h.waits
  birth q := (h'.birth q).trans (h.birth q)
  pid q := (h'.pid q).trans (h.pid q)
  used q hq := h.used q (h'.used q hq)
  started q hq := by
    obtain ⟨hst', hpar'⟩ := h'.started q hq
    obtain ⟨hst, hpar⟩ := h.started q hst'
    refine ⟨hst, ?_⟩
    rcases hpar' with heq | heq
    · rwa [heq]
    · exact .inr heq

theorem kept_of_woken {s : Table} {n : Nat} :
    Kept s { s with proc := fun q => (s.proc q).woken (.other n) } := by
  refine ⟨rfl, rfl, rfl, rfl, fun q => woken_birth .., fun q => woken_pid .., fun q hq hun => ?_,
    fun q hq => ⟨?_, .inl (woken_parent ..)⟩⟩
  · refine hq ?_
    show ((s.proc q).woken _).state = _
    rw [woken_state, hun]
    rfl
  · rw [show ({ s with proc := fun q => (s.proc q).woken (.other n) } : Table).proc q =
      (s.proc q).woken (.other n) from rfl, woken_state] at hq
    split at hq
    · rename_i hst
      exact Live.started (.inr (.inr hst.1))
    · exact hq

theorem kept_of_exit {p : Entry} (hp : (s.proc p).state = .RUNNING) (hbirths : t.births = s.births)
    (hnextpid : t.nextpid = s.nextpid) (hforks : t.forks = s.forks) (hwaits : t.waits = s.waits)
    (hexit : ∀ q, Exited s p q (t.proc q)) : Kept s t := by
  refine ⟨hbirths, hnextpid, hforks, hwaits, fun q => (hexit q).birth, fun q => (hexit q).pid,
    fun q hq => ?_, fun q hq => ⟨?_, ?_⟩⟩
  · by_cases hqp : q = p
    · rw [hqp, hp]
      exact ProcState.noConfusion
    · rcases (hexit q).state hqp with heq | ⟨heq, -⟩
      · rwa [← heq]
      · rw [heq]
        exact ProcState.noConfusion
  · by_cases hqp : q = p
    · rw [hqp, hp]
      exact Live.started (.inr (.inl rfl))
    · rcases (hexit q).state hqp with heq | ⟨heq, -⟩
      · rwa [← heq]
      · exact Live.started (.inr (.inr heq))
  · rw [(hexit q).parent]
    split
    · exact .inr rfl
    · exact .inl rfl

/-- A process goes on at another place. -/
theorem kept_moved {s u : Table} {p : Entry} (hp : u.proc p = s.proc p) (pl : Place) :
    Kept u (u.set p (s.moved p pl)) := by
  unfold Table.moved
  rw [← hp]
  exact kept_set rfl rfl id fun hst => ⟨hst, .inl rfl⟩

/-! ## Processes begin and end -/

/-- `allocproc` has found an entry. -/
theorem Recorded.born (h : Recorded s) (htable : TableInv s) {q : Entry}
    (hq : (s.proc q).state = .UNUSED) (hself : t.proc q = s.embryo q)
    (hother : ∀ q', q' ≠ q → t.proc q' = s.proc q') (hbirths : t.births = s.births + 1)
    (hforks : t.forks = s.forks) (hwaits : t.waits = s.waits) : Recorded t := by
  obtain ⟨hle, hdistinct, hforked, hwaited, hgone, honce⟩ := h
  have hstate : (t.proc q).state = .EMBRYO := by rw [hself]; rfl
  have hbirth : (t.proc q).birth = s.births + 1 := by rw [hself]; rfl
  have hlive : ∀ q' w, (s.proc q').parent = some w → w ≠ q := by
    rintro q' w hw rfl
    have := htable.parent q' w hw
    rw [hq] at this
    exact not_live_unused this
  refine ⟨fun q' hq' => ?_, fun q₁ q₂ h₁ h₂ heq => ?_, fun q' hne hst => ?_, ?_, fun w hw => ?_, ?_⟩
  · by_cases hqq : q' = q
    · rw [hqq, hbirth, hbirths]
    · rw [hother q' hqq] at hq' ⊢
      have := hle q' hq'
      omega
  · by_cases e₁ : q₁ = q <;> by_cases e₂ : q₂ = q
    · exact e₁.trans e₂.symm
    · rw [hother q₂ e₂] at h₂ heq
      have := hle q₂ h₂
      rw [e₁, hbirth] at heq
      omega
    · rw [hother q₁ e₁] at h₁ heq
      have := hle q₁ h₁
      rw [e₂, hbirth] at heq
      omega
    · rw [hother q₁ e₁, hother q₂ e₂] at heq
      rw [hother q₁ e₁] at h₁
      rw [hother q₂ e₂] at h₂
      exact hdistinct q₁ q₂ h₁ h₂ heq
  · have hqq : q' ≠ q := by
      rintro rfl
      exact hst.2 hstate
    rw [hother q' hqq] at hst ⊢
    obtain ⟨f, hf, hchild, hvalue, hcreator⟩ := hforked q' hne hst
    refine ⟨f, hforks ▸ hf, hchild, hvalue, fun w hw => ?_⟩
    rw [hother w (hlive q' w hw)]
    exact hcreator w hw
  · rw [hforks, hwaits]
    exact hwaited
  · rw [hwaits] at hw
    obtain ⟨hw₁, hw₂⟩ := hgone w hw
    refine ⟨by omega, fun q' hq' => ?_⟩
    by_cases hqq : q' = q
    · rw [hqq, hbirth]
      omega
    · rw [hother q' hqq] at hq' ⊢
      exact hw₂ q' hq'
  · rw [hwaits]
    exact honce

/-- More returns of `fork` are recorded. -/
theorem Handed.mono {forks forks' : List ForkRecord} {w : WaitRecord} (h : Handed forks w)
    (hsub : forks ⊆ forks') : Handed forks' w := by
  obtain ⟨hst, hpar, f, hf, hrest⟩ := h
  exact ⟨hst, hpar, f, hsub hf, hrest⟩

/-- `fork` returns. -/
theorem Recorded.done (h : Recorded s) {p q : Entry} (hq : (s.proc q).state = .EMBRYO)
    (hpar : (s.proc q).parent = some p) (hself : t.proc q = { s.proc q with state := .RUNNABLE })
    (hother : ∀ q', q' ≠ q → t.proc q' = s.proc q') (hbirths : t.births = s.births)
    (hforks : t.forks = s.forks ++ [s.forkRecord p q]) (hwaits : t.waits = s.waits) :
    Recorded t := by
  obtain ⟨hle, hdistinct, hforked, hwaited, hgone, honce⟩ := h
  have hbirth : ∀ q', (t.proc q').birth = (s.proc q').birth := by
    intro q'
    by_cases hqq : q' = q
    · rw [hqq, hself]
    · rw [hother q' hqq]
  have hused : ∀ q', (t.proc q').state ≠ .UNUSED → (s.proc q').state ≠ .UNUSED := by
    intro q' hq'
    by_cases hqq : q' = q
    · rw [hqq, hq]
      exact ProcState.noConfusion
    · rwa [← hother q' hqq]
  have hsub : s.forks ⊆ t.forks := by
    rw [hforks]
    exact List.subset_append_left ..
  refine ⟨fun q' hq' => ?_, fun q₁ q₂ h₁ h₂ heq => ?_, fun q' hne hst => ?_, fun w hw => ?_,
    fun w hw => ?_, ?_⟩
  · rw [hbirth, hbirths]
    exact hle q' (hused q' hq')
  · rw [hbirth, hbirth] at heq
    exact hdistinct q₁ q₂ (hused q₁ h₁) (hused q₂ h₂) heq
  · by_cases hqq : q' = q
    · subst hqq
      refine ⟨s.forkRecord p q', ?_, ?_, ?_, fun w hw => .inr ?_⟩
      · rw [hforks]
        exact List.mem_append_right _ (List.mem_singleton_self _)
      · rw [hself]
        rfl
      · rw [hself]
        rfl
      · rw [hself] at hw
        obtain rfl : p = w := Option.some.inj (hpar.symm.trans hw)
        rw [hbirth]
        rfl
    · rw [hother q' hqq] at hst ⊢
      obtain ⟨f, hf, hchild, hvalue, hcreator⟩ := hforked q' hne hst
      refine ⟨f, hsub hf, hchild, hvalue, fun w hw => ?_⟩
      rw [hbirth]
      exact hcreator w hw
  · rw [hwaits] at hw
    exact (hwaited w hw).mono hsub
  · rw [hwaits] at hw
    rw [hbirths]
    refine ⟨(hgone w hw).1, fun q' hq' => ?_⟩
    rw [hbirth]
    exact (hgone w hw).2 q' (hused q' hq')
  · rw [hwaits]
    exact honce

/-- `wait` returns. -/
theorem Recorded.reaped (h : Recorded s) (htable : TableInv s) {p q : Entry}
    (hpar : (s.proc q).parent = some p) (hq : (s.proc q).state = .ZOMBIE)
    (hself : t.proc q = s.reaped q) (hother : ∀ q', q' ≠ q → t.proc q' = s.proc q')
    (hbirths : t.births = s.births) (hforks : t.forks = s.forks)
    (hwaits : t.waits = s.waits ++ [s.waitRecord p q]) : Recorded t := by
  obtain ⟨hle, hdistinct, hforked, hwaited, hgone, honce⟩ := h
  have hne : q ≠ initproc := by
    rintro rfl
    rw [htable.initParent] at hpar
    cases hpar
  have hstarted : Started (s.proc q).state := by
    rw [hq]
    exact ⟨ProcState.noConfusion, ProcState.noConfusion⟩
  have hused : ∀ q', (t.proc q').state ≠ .UNUSED → q' ≠ q ∧ (s.proc q').state ≠ .UNUSED := by
    intro q' hq'
    by_cases hqq : q' = q
    · rw [hqq, hself] at hq'
      exact absurd rfl hq'
    · rw [hother q' hqq] at hq'
      exact ⟨hqq, hq'⟩
  have hbirth : ∀ q', (t.proc q').birth = (s.proc q').birth := by
    intro q'
    by_cases hqq : q' = q
    · rw [hqq, hself]
      rfl
    · rw [hother q' hqq]
  refine ⟨fun q' hq' => ?_, fun q₁ q₂ h₁ h₂ heq => ?_, fun q' hne hst => ?_, fun w hw => ?_,
    fun w hw => ?_, ?_⟩
  · rw [hbirth, hbirths]
    exact hle q' (hused q' hq').2
  · rw [hbirth, hbirth] at heq
    exact hdistinct q₁ q₂ (hused q₁ h₁).2 (hused q₂ h₂).2 heq
  · have hqq := (hused q' hst.1).1
    rw [hother q' hqq] at hst ⊢
    obtain ⟨f, hf, hchild, hvalue, hcreator⟩ := hforked q' hne hst
    refine ⟨f, hforks ▸ hf, hchild, hvalue, fun w hw => ?_⟩
    rw [hbirth]
    exact hcreator w hw
  · rw [hwaits, List.mem_append, List.mem_singleton] at hw
    rw [hforks]
    rcases hw with hw | rfl
    · exact hwaited w hw
    · obtain ⟨f, hf, hchild, hvalue, hcreator⟩ := hforked q hne hstarted
      exact ⟨hq, hpar, f, hf, hchild, hvalue, hcreator p hpar⟩
  · rw [hwaits, List.mem_append, List.mem_singleton] at hw
    rw [hbirths]
    rcases hw with hw | rfl
    · refine ⟨(hgone w hw).1, fun q' hq' => ?_⟩
      rw [hbirth]
      exact (hgone w hw).2 q' (hused q' hq').2
    · refine ⟨hle q hstarted.1, fun q' hq' heq => ?_⟩
      rw [hbirth] at heq
      obtain ⟨hqq, hq''⟩ := hused q' hq'
      exact hqq (hdistinct q' q hq'' hstarted.1 heq)
  · rw [hwaits, List.map_append, List.nodup_append]
    refine ⟨honce, List.nodup_singleton _, fun c hc c' hc' heq => ?_⟩
    obtain ⟨w, hw, rfl⟩ := List.mem_map.mp hc
    obtain rfl := List.mem_singleton.mp hc'
    exact (hgone w hw).2 q hstarted.1 heq.symm

/-! ## Runs -/

/-- **What a step does to the records.** -/
inductive Changes (s : Table) (e : ProcEvent) : Table → Prop
  /-- No process begins or ends. -/
  | kept {t : Table} (hkept : Kept s t) : Changes s e t
  /-- `allocproc` has found an entry. -/
  | born {t u : Table} {p q : Entry} (he : e = .fork p) (hq : (s.proc q).state = .UNUSED)
      (hself : t.proc q = s.embryo q) (hother : ∀ q', q' ≠ q → t.proc q' = s.proc q')
      (hnext : t.nextpid = s.nextpid + 1#32) (hbirths : t.births = s.births + 1)
      (hforks : t.forks = s.forks) (hwaits : t.waits = s.waits) (hmoved : Kept t u) : Changes s e u
  /-- `fork` returns. -/
  | done {t u : Table} {p q : Entry} (hq : (s.proc q).state = .EMBRYO)
      (hpar : (s.proc q).parent = some p) (hself : t.proc q = { s.proc q with state := .RUNNABLE })
      (hother : ∀ q', q' ≠ q → t.proc q' = s.proc q') (hnext : t.nextpid = s.nextpid)
      (hbirths : t.births = s.births) (hforks : t.forks = s.forks ++ [s.forkRecord p q])
      (hwaits : t.waits = s.waits) (hmoved : Kept t u) : Changes s e u
  /-- `wait` returns. -/
  | reaped {t u : Table} {p q : Entry} (hpar : (s.proc q).parent = some p)
      (hq : (s.proc q).state = .ZOMBIE) (hself : t.proc q = s.reaped q)
      (hother : ∀ q', q' ≠ q → t.proc q' = s.proc q') (hnext : t.nextpid = s.nextpid)
      (hbirths : t.births = s.births) (hforks : t.forks = s.forks)
      (hwaits : t.waits = s.waits ++ [s.waitRecord p q]) (hmoved : Kept t u) : Changes s e u

theorem TableInv.changes (h : TableInv s) (hstep : Steps s e t) : Changes s e t := by
  have hself : ∀ q x, (s.set q x).proc q = x := fun q x => by rw [set_proc, if_pos rfl]
  have hother : ∀ q x q', q' ≠ q → (s.set q x).proc q' = s.proc q' := fun q x q' hne => by
    rw [set_proc, if_neg hne]
  have hne : ∀ {p q : Entry}, (s.proc p).state = .RUNNING → (s.proc q).state ≠ .RUNNING → p ≠ q := by
    rintro p q hp hq rfl
    exact hq hp
  cases hstep with
  | idle => exact .kept ⟨rfl, rfl, rfl, rfl, fun _ => rfl, fun _ => rfl, fun _ => id,
      fun _ hst => ⟨hst, .inl rfl⟩⟩
  | sched hp =>
      refine .kept (kept_set rfl rfl (fun _ => ?_) fun _ => ⟨Live.started (.inl hp), .inl rfl⟩)
      rw [hp]
      exact ProcState.noConfusion
  | wakeup => exact .kept kept_of_woken
  | @kill pid q =>
      refine .kept (kept_set rfl rfl (fun hst hun => hst ?_) fun hst => ⟨?_, .inl rfl⟩)
      · show (if _ then _ else _) = _
        rw [if_neg (by rw [hun]; exact ProcState.noConfusion), hun]
      · by_cases hq : (s.proc q).state = .SLEEPING
        · exact Live.started (.inr (.inr hq))
        · rwa [show (s.proc q).kill.state = (s.proc q).state from if_neg hq] at hst
  | yield hp =>
      exact .kept (kept_set rfl rfl (fun _ => (Live.of_running hp).started.1)
        fun _ => ⟨(Live.of_running hp).started, .inl rfl⟩)
  | sleep hp =>
      exact .kept (kept_set rfl rfl (fun _ => (Live.of_running hp).started.1)
        fun _ => ⟨(Live.of_running hp).started, .inl rfl⟩)
  | waitSleep hp hplace hno =>
      exact .kept (kept_set rfl rfl (fun _ => (Live.of_running hp).started.1)
        fun _ => ⟨(Live.of_running hp).started, .inl rfl⟩)
  | wait hp hplace => exact .kept (kept_moved rfl _)
  | giveUp hp => exact .kept (kept_moved rfl _)
  | exit hp hinit => exact .kept (kept_of_exit hp rfl rfl rfl rfl fun q => exited s _ q)
  | @forkFail p q hp hplace =>
      obtain ⟨hst, hpar⟩ := h.fork p q hplace
      have hpq : p ≠ q := hne hp (by rw [hst]; exact ProcState.noConfusion)
      have hfail : Kept s (s.set q { s.proc q with state := .UNUSED }) :=
        kept_set rfl rfl (fun hun => absurd rfl hun) fun hun => absurd rfl hun.1
      exact .kept (hfail.trans (kept_moved (hother q _ p hpq) _))
  | @forkParent p q hp hplace =>
      obtain ⟨hst, hpar⟩ := h.fork p q hplace
      have hpq : p ≠ q := hne hp (by rw [hst]; exact ProcState.noConfusion)
      have hgiven : Kept s (s.set q { s.proc q with parent := some p }) :=
        kept_set rfl rfl id fun hstarted => absurd hst hstarted.2
      exact .kept (hgiven.trans (kept_moved (hother q _ p hpq) _))
  | @fork p q hp hplace hq =>
      have hpq : p ≠ q := hne hp (by rw [hq]; exact ProcState.noConfusion)
      exact .born (t := { s.set q (s.embryo q) with
        nextpid := s.nextpid + 1#32, births := s.births + 1 }) rfl hq (hself q _) (hother q _) rfl rfl
          rfl rfl (kept_moved (by exact hother q _ p hpq) _)
  | @forkDone p q hp hplace =>
      obtain ⟨hst, hpar⟩ := h.forkReady p q hplace
      have hpq : p ≠ q := hne hp (by rw [hst]; exact ProcState.noConfusion)
      exact .done (t := { s.set q { s.proc q with state := .RUNNABLE } with
        forks := s.forks ++ [s.forkRecord p q] }) hst hpar (hself q _) (hother q _) rfl rfl rfl rfl
          (kept_moved (by exact hother q _ p hpq) _)
  | @reap p q hp hpar hq =>
      have hpq : p ≠ q := hne hp (by rw [hq]; exact ProcState.noConfusion)
      exact .reaped (t := { s.set q (s.reaped q) with
        waits := s.waits ++ [s.waitRecord p q] }) hpar hq (hself q _) (hother q _) rfl rfl rfl rfl
          (kept_moved (by exact hother q _ p hpq) _)

/-- **Every step keeps the records in order.** -/
theorem Recorded.step (h : Recorded s) (htable : TableInv s) (hstep : Steps s e t) :
    Recorded t := by
  cases htable.changes hstep with
  | kept hkept => exact h.keep hkept
  | born he hq hself hother hnext hbirths hforks hwaits hmoved =>
      exact (h.born htable hq hself hother hbirths hforks hwaits).keep hmoved
  | done hq hpar hself hother hnext hbirths hforks hwaits hmoved =>
      exact (h.done hq hpar hself hother hbirths hforks hwaits).keep hmoved
  | reaped hpar hq hself hother hnext hbirths hforks hwaits hmoved =>
      exact (h.reaped htable hpar hq hself hother hbirths hforks hwaits).keep hmoved

/-- `allocproc` does not wrap `nextpid` around. -/
def PidLeft (s : Table) : ProcEvent → Prop
  | .fork _ => s.nextpid ≠ BitVec.intMax 32
  | _ => True

theorem toInt_add_one {n : BitVec 32} (h : n ≠ BitVec.intMax 32) :
    (n + 1#32).toInt = n.toInt + 1 := by
  have hn : n.toNat ≠ 2147483647 := fun heq => h (BitVec.eq_of_toNat_eq heq)
  rw [BitVec.toInt_eq_toNat_cond, BitVec.toInt_eq_toNat_cond, BitVec.toNat_add]
  have := n.isLt
  simp only [BitVec.toNat_ofNat]
  split <;> split <;> omega

/-- **Pids stay the numbers of the processes** while `nextpid` does not wrap around. -/
theorem Numbered.step (h : Numbered s) (htable : TableInv s) (hstep : Steps s e t)
    (hpid : PidLeft s e) : Numbered t := by
  cases htable.changes hstep with
  | kept hkept => exact h.keep hkept
  | @born t u p q he hq hself hother hnext hbirths hforks hwaits hmoved =>
      subst he
      refine Numbered.keep ⟨?_, fun q' hq' => ?_, ?_⟩ hmoved
      · rw [hnext, toInt_add_one hpid, h.next, hbirths]
        push_cast
        rfl
      · by_cases hqq : q' = q
        · rw [hqq, hself]
          exact h.next
        · rw [hother q' hqq] at hq' ⊢
          exact h.pid q' hq'
      · rw [hwaits]
        exact h.value
  | @done t u p q hq hpar hself hother hnext hbirths hforks hwaits hmoved =>
      refine Numbered.keep ⟨?_, fun q' hq' => ?_, ?_⟩ hmoved
      · rw [hnext, h.next, hbirths]
      · by_cases hqq : q' = q
        · rw [hqq, hself]
          refine h.pid q ?_
          rw [hq]
          exact ProcState.noConfusion
        · rw [hother q' hqq] at hq' ⊢
          exact h.pid q' hq'
      · rw [hwaits]
        exact h.value
  | @reaped t u p q hpar hq hself hother hnext hbirths hforks hwaits hmoved =>
      refine Numbered.keep ⟨?_, fun q' hq' => ?_, fun w hw => ?_⟩ hmoved
      · rw [hnext, h.next, hbirths]
      · by_cases hqq : q' = q
        · rw [hqq, hself] at hq'
          exact absurd rfl hq'
        · rw [hother q' hqq] at hq' ⊢
          exact h.pid q' hq'
      · rw [hwaits, List.mem_append, List.mem_singleton] at hw
        rcases hw with hw | rfl
        · exact h.value w hw
        · refine h.pid q ?_
          rw [hq]
          exact ProcState.noConfusion

theorem recorded_boot : Recorded Table.boot := by
  have hother : ∀ q, q ≠ initproc → (Table.boot.proc q).state = .UNUSED := fun q hq => by
    rw [show Table.boot.proc q = _ from if_neg hq]
  refine ⟨fun q hq => ?_, fun q q' hq hq' _ => ?_, fun q hne hst => absurd (hother q hne) hst.1,
    fun w hw => (nomatch hw), fun w hw => (nomatch hw), List.nodup_nil⟩
  · obtain rfl : q = initproc := not_not.mp fun hne => hq (hother q hne)
    exact le_refl 1
  · exact (not_not.mp fun hne => hq (hother q hne)).trans
      (not_not.mp fun hne => hq' (hother q' hne)).symm

theorem numbered_boot : Numbered Table.boot := by
  refine ⟨rfl, fun q hq => ?_, fun w hw => (nomatch hw)⟩
  obtain rfl : q = initproc := by
    by_contra hne
    exact hq (by rw [show Table.boot.proc q = _ from if_neg hne])
  rfl

/-- A run of the system from `userinit`. -/
abbrev ProcRun (tr : List (Table × ProcEvent)) (s : Table) : Prop :=
  Exec (StepOf Table.step) Table.boot tr s

/-- No process sleeps in `wait` while it has a zombie child. -/
def NoZombieForgotten (s : Table) : Prop :=
  ∀ p q, (s.proc p).state = .SLEEPING → (s.proc p).chan = some (.proc p) →
    (s.proc q).parent = some p → (s.proc q).state ≠ .ZOMBIE

/-- **Every process is handed to one `wait`**, in every run. -/
theorem handed_once {tr : List (Table × ProcEvent)} {s : Table} (hrun : ProcRun tr s) :
    NoZombieForgotten s ∧ (s.waits.map WaitRecord.child).Nodup ∧
      ∀ w ∈ s.waits, Handed s.forks w := by
  have hinv : TableInv s ∧ Recorded s := by
    refine Exec.invariant (P := fun s => TableInv s ∧ Recorded s) ?_ hrun
      ⟨tableInv_boot, recorded_boot⟩
    intro t e u ht hstep
    have hsteps := steps_of_step hstep
    exact ⟨ht.1.step hsteps, ht.2.step ht.1 hsteps⟩
  exact ⟨hinv.1.wait, hinv.2.once, hinv.2.waited⟩

/-- **Every pid is returned by one `wait`** in a run in which `nextpid` does not wrap around. -/
theorem pid_returned_once {tr : List (Table × ProcEvent)} {s : Table} (hrun : ProcRun tr s)
    (hpid : ∀ p ∈ tr, PidLeft p.1 p.2) :
    ∀ x ∈ visited tr s, NoZombieForgotten x ∧ (x.waits.map WaitRecord.value).Nodup ∧
      ∀ w ∈ x.waits, Handed x.forks w := by
  intro x hx
  have hinv : TableInv x ∧ Recorded x ∧ Numbered x := by
    refine @Exec.forall_visited_of_ok _ _ _ (fun s => TableInv s ∧ Recorded s ∧ Numbered s)
      PidLeft ?_ _ _ _ hrun ⟨tableInv_boot, recorded_boot, numbered_boot⟩ hpid x hx
    intro t e u ht hok hstep
    have hsteps := steps_of_step hstep
    exact ⟨ht.1.step hsteps, ht.2.1.step ht.1 hsteps, ht.2.2.step ht.1 hsteps hok⟩
  obtain ⟨htable, hrec, hnum⟩ := hinv
  refine ⟨htable.wait, ?_, hrec.waited⟩
  have hvalue : x.waits.map WaitRecord.value =
      (x.waits.map WaitRecord.child).map (fun n : Nat => (n : Int)) := by
    rw [List.map_map]
    exact List.map_congr_left fun w hw => hnum.value w hw
  rw [hvalue]
  exact hrec.once.map Int.ofNat_injective

/-! ## A pid that is returned twice -/

/-- The first entry after that of `initproc`. -/
def firstChild : Entry := ⟨1, one_lt_NPROC⟩

/-- `initproc` makes a child, which exits, and waits for it. -/
def handoff : List ProcEvent :=
  [.sched initproc, .fork initproc, .forkParent initproc, .forkDone initproc, .yield initproc,
    .sched firstChild, .exit firstChild, .sched initproc, .wait initproc, .scan initproc,
    .yield initproc]

/-- `PidLeft`, to be computed. -/
def pidLeft (s : Table) : ProcEvent → Bool
  | .fork _ => s.nextpid != BitVec.intMax 32
  | _ => true

theorem PidLeft.of_pidLeft {s : Table} (h : pidLeft s e = true) : PidLeft s e := by
  cases e with
  | fork p => exact bne_iff_ne.mp h
  | _ => trivial

/-- A run with one hand-off. -/
theorem pid_returned_once_handoff :
    ∃ tr s, ProcRun tr s ∧ s.waits.map WaitRecord.value = [2] ∧
      ∀ x ∈ visited tr s, NoZombieForgotten x ∧ (x.waits.map WaitRecord.value).Nodup ∧
        ∀ w ∈ x.waits, Handed x.forks w := by
  have hrun : runAll Table.step Table.boot handoff = some _ := rfl
  have hleft : (traceAll Table.step Table.boot handoff).all (fun p => pidLeft p.1 p.2) = true := by
    decide +kernel
  have hexec := exec_of_runAll Table.step hrun
  exact ⟨_, _, hexec, rfl, pid_returned_once hexec fun p hp =>
    .of_pidLeft (List.all_eq_true.mp hleft p hp)⟩

theorem handed_once_handoff :
    ∃ tr s, ProcRun tr s ∧ s.waits.length = 1 ∧ ∀ w ∈ s.waits, Handed s.forks w := by
  have hrun : runAll Table.step Table.boot handoff = some _ := rfl
  have hexec := exec_of_runAll Table.step hrun
  exact ⟨_, _, hexec, rfl, (handed_once hexec).2.2⟩

/-- The table between two hand-offs. `b` is the number of the last child. -/
def resting (b : Nat) (q : Entry) : Proc :=
  if q = initproc then ⟨.RUNNABLE, 1, none, false, none, .user, 1⟩
  else ⟨.UNUSED, 0, none, false, none, .user, if q = firstChild then b else 0⟩

/-- **A hand-off leads back to the same table**, with the next pid. -/
theorem exec_handoff {s : Table} {b : Nat} (hs : s.proc = resting b) :
    ∃ tr t, Exec (StepOf Table.step) s tr t ∧ t.nextpid = s.nextpid + 1#32 ∧
      t.proc = resting (s.births + 1) ∧ ∃ w, t.waits = s.waits ++ [w] ∧ w.value = s.nextpid.toInt := by
  obtain ⟨proc, nextpid, births, forks, waits⟩ := s
  obtain rfl : proc = resting b := hs
  have hrun : runAll Table.step ⟨resting b, nextpid, births, forks, waits⟩ handoff = some _ := rfl
  refine ⟨_, _, exec_of_runAll Table.step hrun, rfl, ?_, _, rfl, rfl⟩
  funext ⟨i, hi⟩
  match i with
  | 0 => rfl
  | 1 => rfl
  | i + 2 => rfl

/-- The pids that `wait` returns to `initproc` in `k` hand-offs. -/
theorem exec_handoffs (k : Nat) :
    ∃ tr s, ProcRun tr s ∧ s.nextpid = BitVec.ofNat 32 (k + 2) ∧ (∃ b, s.proc = resting b) ∧
      s.waits.map WaitRecord.value = (List.range k).map fun i => (BitVec.ofNat 32 (i + 2)).toInt := by
  induction k with
  | zero =>
      refine ⟨_, _, Exec.nil _, rfl, ⟨0, ?_⟩, rfl⟩
      funext q
      show (if q = initproc then _ else _) = _
      rw [resting, ite_self]
  | succ k ih =>
      obtain ⟨tr, s, hrun, hnext, ⟨b, hproc⟩, hwaits⟩ := ih
      obtain ⟨tr', t, hrun', hnext', hproc', w, hw, hvalue⟩ := exec_handoff hproc
      refine ⟨tr ++ tr', t, hrun.trans hrun', ?_, ⟨_, hproc'⟩, ?_⟩
      · rw [hnext', hnext, ← BitVec.ofNat_add]
      · rw [hw, List.map_append, hwaits, List.range_succ, List.map_append]
        simp [hvalue, hnext]

/-- **`wait` returns a pid twice**: `initproc` makes 2 ^ 32 + 1 children, one after the other, and
the last one has the pid of the first. -/
theorem pid_returned_twice :
    ∃ tr s, ProcRun tr s ∧ ¬ (s.waits.map WaitRecord.value).Nodup := by
  obtain ⟨tr, s, hrun, -, -, hwaits⟩ := exec_handoffs (2 ^ 32 + 1)
  refine ⟨tr, s, hrun, fun hnodup => ?_⟩
  rw [hwaits] at hnodup
  have hsame : (BitVec.ofNat 32 (0 + 2)).toInt = (BitVec.ofNat 32 (2 ^ 32 + 2)).toInt := by
    rw [show BitVec.ofNat 32 (2 ^ 32 + 2) = BitVec.ofNat 32 (0 + 2) from
      BitVec.eq_of_toNat_eq (by simp only [BitVec.toNat_ofNat]; omega)]
  have heq := List.inj_on_of_nodup_map hnodup (List.mem_range.mpr (by omega))
    (List.mem_range.mpr (by omega)) hsame
  exact absurd heq (by omega)

end Xv6.Ptable

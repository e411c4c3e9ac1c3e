import Xv6.Switch.Triples
import Xv6.Lib.Exec

/-! # Handing `ptable.lock` over

The invariant of the system: the context that runs keeps to the rules from where it is on, and so
does every saved context once the lock has been handed to it. One lemma for each kind of step shows
that it is kept. It follows that interrupts are enabled only with `ncli` zero, that exactly
`ptable.lock` is held at every `swtch`, that whoever is resumed releases it once, and that the panics
that guard this protocol are out of reach. -/

namespace Xv6.Switch

open Lib

open Function (update update_of_ne update_self)

/-! ## The invariant -/

/-- Where a context may be when it is done with its program: a process is in user mode, the
scheduler between two rounds. -/
def Done : Option Pid → Unit → St → Prop
  | none, _, t => At none [] t
  | some p, _, t => Open (some p) t

/-- A saved context that keeps to the rules once it is resumed. -/
structure Ready (c : Option Pid) (k : Context) : Prop where
  stack : k.stack = c
  blocked : k.sr &&& SR_BL_MASK ≠ 0#32
  code : ∀ t, Resumed c t → wpc c k.prog (Done c) t

/-- The context is saved and keeps to the rules. -/
def IsSaved (s : Sys) (c : Option Pid) : Prop := ∃ k, s.saved c = some k ∧ Ready c k

/-- **The invariant.** -/
structure Inv (s : Sys) : Prop where
  code : wpc s.stack s.prog (Done s.stack) s.st
  scheduler : s.stack ≠ none → IsSaved s none
  procs : ∀ p, s.stack ≠ some p → live (s.st.state p) = true → IsSaved s (some p)

variable {c : Option Pid}

/-- A context that keeps to the rules leaves the state open when interrupts are enabled. -/
theorem open_of_wpc {m : Code Unit} {s : St} (h : wpc c m (Done c) s) (hb : s.cpu.blocked = false) :
    Open c s := by
  cases m with
  | ret x =>
      cases c with
      | none => exact ⟨hb, h⟩
      | some p => exact h
  | act a k =>
      rcases h.1 with hb' | hopen
      · exact absurd (hb.symm.trans hb') Bool.false_ne_true
      · exact hopen
  | panic msg => exact h.elim

/-- What a context can do when interrupts are enabled it can do in every open state. -/
theorem wpc_of_open {m : Code Unit} {s t : St} (h : wpc c m (Done c) s) (hs : s.cpu.blocked = false)
    (ht : Open c t) : wpc c m (Done c) t := by
  have hopen := open_of_wpc h hs
  cases m with
  | ret x =>
      cases c with
      | none => exact ht.2
      | some p => exact ht
  | act a k =>
      refine ⟨.inr ht, ?_⟩
      rintro s' (rfl | ⟨-, hs'⟩)
      · exact h.2 _ (.inr ⟨hopen, ht⟩)
      · exact h.2 _ (.inr ⟨hopen, hs'⟩)
  | panic msg => exact h.elim

namespace Inv

variable {s t : Sys}

theorem isOpen (h : Inv s) (hb : s.st.cpu.blocked = false) : Open s.stack s.st :=
  open_of_wpc h.code hb

/-- What the rules say about the next instruction. -/
theorem next (h : Inv s) {a : Instr} {k : a.Resp → Code Unit} (hprog : s.prog = .act a k) :
    Guard s.stack a s.st ∧ After s.stack s.st a fun b => wpc s.stack (k b) (Done s.stack) := by
  have hcode := h.code
  rw [hprog] at hcode
  exact hcode.2 s.st (.inl rfl)

/-- Only two instructions change the state of a process. -/
theorem state_of_does {c : Option Pid} {a : Instr} {x y : St} {b : a.Resp} (hdoes : a.Does x b y)
    (hguard : Guard c a x) {q : Pid} (hq : c ≠ some q) (hlive : live (y.state q) = true) :
    live (x.state q) = true ∨ a = .start q := by
  cases a with
  | setState p st =>
      obtain rfl : y = x.setState p st := hdoes
      by_cases hqp : q = p
      · subst hqp
        have hst : (x.setState q st).state q = st := update_self ..
        exact .inl (hguard.resolve_left hq (hst ▸ hlive))
      · have hst : (x.setState p st).state q = x.state q := update_of_ne hqp ..
        exact .inl (hst ▸ hlive)
  | start p =>
      obtain rfl : y = x.setState p .RUNNABLE := hdoes
      by_cases hqp : q = p
      · exact .inr (hqp ▸ rfl)
      · have hst : (x.setState p .RUNNABLE).state q = x.state q := update_of_ne hqp ..
        exact .inl (hst ▸ hlive)
  | swtch old new => exact hdoes.elim
  | panic msg => exact hdoes.elim
  | readSr | getNcli | getIntena | getLock | getProc | getState | getKilled | getParent | getChan =>
      obtain ⟨-, rfl⟩ := hdoes
      exact .inl hlive
  | spin l =>
      obtain ⟨-, rfl⟩ := hdoes
      exact .inl hlive
  | ask q =>
      obtain rfl : y = x := hdoes
      exact .inl hlive
  | cli | sti | rte | setNcli | setIntena | setLock | setProc | setKilled | setParent | setChan =>
      obtain rfl : y = _ := hdoes
      exact .inl hlive

end Inv

/-! ## Steps keep the invariant -/

theorem After.of_does {s t : St} {a : Instr} {P : a.Resp → St → Prop} {b : a.Resp}
    (h : After c s a P) (hdoes : a.Does s b t) : P b t := by
  cases a with
  | swtch old new => exact hdoes.elim
  | _ => exact h b t hdoes

/-- A new process starts in `forkret` with the lock handed to it. -/
theorem ready_freshContext (p : Pid) : Ready (some p) (freshContext p) :=
  ⟨rfl, show 0x70000000#32 &&& SR_BL_MASK ≠ 0#32 by decide, fun t ht => triple_forkret t ht⟩

theorem contexts_none (saved : Option Pid → Option Context) (a : Instr) :
    a.contexts saved none = saved none := by
  cases a with
  | start p =>
      have hne : (none : Option Pid) ≠ some p := (by rintro ⟨⟩)
      exact update_of_ne hne ..
  | _ => rfl

theorem contexts_some (saved : Option Pid → Option Context) (a : Instr) (q : Pid) :
    (a = .start q ∧ a.contexts saved (some q) = some (freshContext q))
      ∨ (a ≠ .start q ∧ a.contexts saved (some q) = saved (some q)) := by
  cases a with
  | start p =>
      by_cases hp : p = q
      · subst hp
        exact .inl ⟨rfl, update_self ..⟩
      · refine .inr ⟨fun h => hp (Instr.start.inj h), update_of_ne ?_ ..⟩
        exact fun h => hp (Option.some.inj h).symm
  | _ => exact .inr ⟨nofun, rfl⟩

namespace Inv

variable {s t : Sys}

theorem instr (h : Inv s) {a : Instr} {k : a.Resp → Code Unit} {b : a.Resp} {x : St}
    (hprog : s.prog = .act a k) (hdoes : a.Does s.st b x) :
    Inv ⟨x, s.stack, k b, a.contexts s.saved⟩ := by
  obtain ⟨hguard, hafter⟩ := h.next hprog
  refine ⟨hafter.of_does hdoes, fun hne => ?_, fun q hq hlive => ?_⟩
  · obtain ⟨c, hc, hready⟩ := h.scheduler hne
    exact ⟨c, (contexts_none _ a).trans hc, hready⟩
  · rcases contexts_some s.saved a q with ⟨-, hnew⟩ | ⟨hne, hold⟩
    · exact ⟨_, hnew, ready_freshContext q⟩
    · have hwas := (state_of_does hdoes hguard hq hlive).resolve_right hne
      obtain ⟨c, hc, hready⟩ := h.procs q hq hwas
      exact ⟨c, hold.trans hc, hready⟩

/-- Loading a status register with `BL` set keeps what is known of a hand-over. -/
theorem handed_setSr {R : Rest} {x : St} {sr : BitVec 32} (hx : Handed R x)
    (hsr : sr &&& SR_BL_MASK ≠ 0#32) : Handed R (x.setSr sr) :=
  ⟨hx.lock, hx.ncli, fun _ => by simp [St.setSr, Cpu.blocked, hsr], hx.rest⟩

theorem sr_of_blocked {c : Cpu} (hb : c.blocked = true) : c.sr &&& SR_BL_MASK ≠ 0#32 := by
  simpa [Cpu.blocked] using hb

/-- The context that is left at a hand-over is ready to be resumed. -/
theorem ready_old (h : Inv s) {old new : Option Pid} {k : Unit → Code Unit}
    (hprog : s.prog = .act (.swtch old new) k)
    (hlive : ∀ p, s.stack = some p → live (s.st.state p) = true)
    (hb : s.st.cpu.blocked = true) : Ready s.stack ⟨s.stack, k (), s.st.cpu.sr⟩ :=
  ⟨rfl, sr_of_blocked hb, (h.next hprog).2 hlive⟩

/-- **The hand-over keeps the invariant.** -/
theorem swtch (h : Inv s) {old new : Option Pid} {k : Unit → Code Unit} {c : Context}
    (hprog : s.prog = .act (.swtch old new) k) (hnew : s.saved new = some c) :
    Inv ⟨s.st.setSr c.sr, c.stack, c.prog,
      update s.saved old (some ⟨s.stack, k (), s.st.cpu.sr⟩)⟩ := by
  obtain ⟨hold, hguard⟩ := (h.next hprog).1
  subst hold
  cases hstack : s.stack with
  | none =>
      -- the scheduler hands the lock to a process
      rw [hstack] at hguard
      obtain ⟨p, rfl, hhanded⟩ := hguard
      have hne : s.stack ≠ some p := by rw [hstack]; rintro ⟨⟩
      have hrunning : s.st.state p = .RUNNING := hhanded.rest.2 p rfl
      obtain ⟨c', hc', hready⟩ := h.procs p hne (by rw [hrunning]; rfl)
      obtain rfl : c = c' := Option.some.inj (hnew.symm.trans hc')
      have hsaved : update s.saved none (some ⟨none, k (), s.st.cpu.sr⟩) none
          = some ⟨none, k (), s.st.cpu.sr⟩ := update_self ..
      refine ⟨?_, fun _ => ⟨_, hsaved, ?_⟩, fun q hq hlive => ?_⟩
      · rw [hready.stack]
        exact hready.code _ (handed_setSr hhanded hready.blocked)
      · have hold := h.ready_old hprog (fun q hq => absurd (hstack.symm.trans hq) (by rintro ⟨⟩))
          (hhanded.blocked Nat.one_ne_zero)
        rwa [hstack] at hold
      · have hne : (some q : Option Pid) ≠ none := (by rintro ⟨⟩)
        obtain ⟨c', hc', hready'⟩ := h.procs q (by rw [hstack]; exact hne.symm) hlive
        exact ⟨c', hc', hready'⟩
  | some p =>
      -- a process hands the lock to the scheduler
      rw [hstack] at hguard
      obtain ⟨rfl, hhanded⟩ := hguard
      obtain ⟨c', hc', hready⟩ := h.scheduler (by rw [hstack]; rintro ⟨⟩)
      obtain rfl : c = c' := Option.some.inj (hnew.symm.trans hc')
      refine ⟨?_, fun hne => absurd hready.stack hne, fun q hq hlive => ?_⟩
      · rw [hready.stack]
        exact hready.code _ (handed_setSr hhanded hready.blocked)
      · by_cases hqp : q = p
        · subst hqp
          refine ⟨⟨some q, k (), s.st.cpu.sr⟩, update_self .., ?_⟩
          have hold := h.ready_old hprog (fun r hr => ?_) (hhanded.blocked Nat.one_ne_zero)
          · rwa [hstack] at hold
          · obtain rfl : q = r := Option.some.inj (hstack.symm.trans hr)
            exact hlive
        · have hne : (some q : Option Pid) ≠ some p := fun heq => hqp (Option.some.inj heq)
          obtain ⟨c', hc', hready'⟩ := h.procs q (by rw [hstack]; exact hne.symm) hlive
          exact ⟨c', (update_of_ne hne _ s.saved).trans hc', hready'⟩

theorem at_setSr {c : Option Pid} {x : St} {sr : BitVec 32} (hx : At c [] x) :
    At c [] (x.setSr sr) :=
  ⟨hx.lock, hx.ncli, fun hn => absurd rfl hn, hx.rest⟩

theorem sr_of_open {c : Cpu} (hb : c.blocked = false) : c.sr &&& SR_BL_MASK = 0#32 := by
  simpa [Cpu.blocked] using hb

/-- Interrupts keep the invariant. -/
theorem irq (h : Inv s) (i : Irq) (hb : s.st.cpu.blocked = false) :
    Inv ⟨s.st.setSr (handlerSr s.st.cpu.sr), s.stack,
      (do i.handler; Switch.instr (.rte s.st.cpu.sr); s.prog), s.saved⟩ := by
  refine ⟨?_, h.scheduler, h.procs⟩
  refine Triple.bind (triple_handler i) (fun _ => ?_) _ (at_setSr (h.isOpen hb).2)
  exact Triple.bind (triple_rte (sr_of_open hb)) fun _ x hx => wpc_of_open h.code hb hx

/-- System calls keep the invariant. -/
theorem syscall (h : Inv s) {p : Pid} (ts : List Task) (hstack : s.stack = some p)
    (hprog : s.prog = .ret ()) :
    Inv ⟨s.st.setSr (handlerSr s.st.cpu.sr), s.stack,
      (do tasksCode ts; Switch.instr (.rte s.st.cpu.sr)), s.saved⟩ := by
  have hopen : Open (some p) s.st := by
    have hcode := h.code
    rwa [hprog, hstack] at hcode
  refine ⟨?_, h.scheduler, h.procs⟩
  rw [hstack]
  exact Triple.bind (triple_tasksCode ts) (fun _ => triple_rte (sr_of_open hopen.1)) _
    (at_setSr hopen.2)

/-- The rounds of the scheduler keep the invariant. -/
theorem round (h : Inv s) (hstack : s.stack = none) (hprog : s.prog = .ret ()) :
    Inv ⟨s.st, none, Switch.scheduler, s.saved⟩ := by
  have hat : At none [] s.st := by
    have hcode := h.code
    rwa [hprog, hstack] at hcode
  refine ⟨triple_scheduler _ hat, fun hne => absurd rfl hne, fun q hq hlive => ?_⟩
  exact h.procs q (by rw [hstack]; exact hq) hlive

/-- **Every step keeps the invariant.** -/
theorem step {e : Event} (h : Inv s) (hstep : Step s e t) : Inv t := by
  cases hstep with
  | instr hprog hdoes => exact h.instr hprog hdoes
  | swtch hprog hnew => exact h.swtch hprog hnew
  | irq i hb => exact h.irq i hb
  | syscall ts hstack hprog => exact h.syscall ts hstack hprog
  | round hstack hprog => exact h.round hstack hprog

/-- The invariant holds when the scheduler is called. -/
theorem boot (sr : BitVec 32) : Inv (boot sr) := by
  refine ⟨⟨fun l => (if_neg List.not_mem_nil).symm, rfl, fun hn => absurd rfl hn, rfl,
    fun p hp => by cases hp⟩, fun hne => absurd rfl hne, fun p _ hlive => ?_⟩
  by_cases hp : p = initproc
  · subst hp
    exact ⟨freshContext initproc, rfl, ready_freshContext _⟩
  · have hunused : (Switch.boot sr).st.state p = .UNUSED := if_neg hp
    rw [hunused] at hlive
    cases hlive

/-- It holds in every state that the system can reach. -/
theorem exec {tr : List (Sys × Event)} (h : Inv s) (hrun : Exec Step s tr t) : Inv t :=
  hrun.invariant (fun _ _ _ hinv hstep => hinv.step hstep) h

end Inv

/-! ## The lock over time -/

/-- `ptable.lock` is held. -/
def ptableHeld (s : Sys) : Bool := (s.st.lock .ptable).locked

/-- The event takes `ptable.lock`. -/
def Event.isAcquire : Event → Bool
  | .instr (.setLock .ptable v) => v.locked
  | _ => false

/-- The event gives `ptable.lock` up. -/
def Event.isRelease : Event → Bool
  | .instr (.setLock .ptable v) => !v.locked
  | _ => false

/-- Only the two kinds of events change the lock. -/
theorem locked_of_does {a : Instr} {x y : St} {b : a.Resp} (hdoes : a.Does x b y)
    (ha : ∀ v, a ≠ .setLock .ptable v) : (y.lock .ptable).locked = (x.lock .ptable).locked := by
  cases a with
  | setLock l v =>
      obtain rfl : y = x.setLock l v := hdoes
      have hl : Lock.ptable ≠ l := fun h => ha v (h ▸ rfl)
      show (update x.lock l v .ptable).locked = _
      rw [update_of_ne hl]
  | swtch old new => exact hdoes.elim
  | panic msg => exact hdoes.elim
  | readSr | getNcli | getIntena | getLock | getProc | getState | getKilled | getParent | getChan
  | spin =>
      obtain ⟨-, rfl⟩ := hdoes
      rfl
  | ask q =>
      obtain rfl : y = x := hdoes
      rfl
  | cli | sti | rte | setNcli | setIntena | setProc | setState | setKilled | setParent | setChan
  | start =>
      obtain rfl : y = _ := hdoes
      rfl

namespace Inv

variable {s t : Sys}

/-- **The lock alternates**: it is taken only when it is free and given up only when it is held. -/
theorem ptableHeld_step {e : Event} (h : Inv s) (hstep : Step s e t) :
    (e.isRelease.toNat + (ptableHeld t).toNat = e.isAcquire.toNat + (ptableHeld s).toNat) ∧
      (e.isRelease = true → ptableHeld s = true) := by
  cases hstep with
  | @instr a k b x hprog hdoes =>
      by_cases ha : ∃ v, a = .setLock .ptable v
      · obtain ⟨v, rfl⟩ := ha
        have hguard : (s.st.lock .ptable).locked = !v.locked := (h.next hprog).1
        obtain rfl : x = s.st.setLock .ptable v := hdoes
        have hafter : (s.st.setLock .ptable v).lock .ptable = v := by simp [St.setLock]
        simp only [ptableHeld, hguard, hafter, Event.isRelease, Event.isAcquire]
        cases v.locked <;> decide
      · have hsame := locked_of_does hdoes fun v hv => ha ⟨v, hv⟩
        have hevent : (Event.instr a).isRelease = false ∧ (Event.instr a).isAcquire = false := by
          cases a with
          | setLock l v =>
              cases l with
              | ptable => exact absurd ⟨v, rfl⟩ ha
              | _ => exact ⟨rfl, rfl⟩
          | _ => exact ⟨rfl, rfl⟩
        simp only [ptableHeld, hsame, hevent.1, hevent.2, true_and]
        exact nofun
  | swtch hprog hnew => exact ⟨rfl, nofun⟩
  | irq i hb => exact ⟨rfl, nofun⟩
  | syscall ts hstack hprog => exact ⟨rfl, nofun⟩
  | round hstack hprog => exact ⟨rfl, nofun⟩

/-- The same over a whole run. -/
theorem ptableHeld_exec {tr : List (Sys × Event)} (h : Inv s) (hrun : Exec Step s tr t) :
    tr.countP (·.2.isRelease) + (ptableHeld t).toNat
      = tr.countP (·.2.isAcquire) + (ptableHeld s).toNat := by
  induction hrun with
  | nil => rfl
  | @snoc t u e tr head last ih =>
      have hstep := ((h.exec head).ptableHeld_step last).1
      rw [List.countP_append, List.countP_append, List.countP_singleton, List.countP_singleton]
      cases hr : e.isRelease <;> cases ha : e.isAcquire <;>
        simp only [hr, ha, Bool.toNat_true, Bool.toNat_false, if_true, if_false,
          Bool.false_eq_true] at hstep ⊢ <;> omega

theorem not_ptableHeld (h : Inv s) (hb : s.st.cpu.blocked = false) : ptableHeld s = false := by
  have hlock := (h.isOpen hb).2.lock .ptable
  rw [ptableHeld, hlock, if_neg List.not_mem_nil]

/-! ## Whoever holds the lock goes on -/

theorem exists_does {c : Option Pid} {a : Instr} {x : St} (hguard : Guard c a x)
    (hswtch : ∀ old new, a ≠ .swtch old new) (hpanic : ∀ msg, a ≠ .panic msg) :
    ∃ b y, a.Does x b y := by
  cases a with
  | swtch old new => exact absurd rfl (hswtch old new)
  | panic msg => exact absurd rfl (hpanic msg)
  | readSr | getNcli | getIntena | getLock | getProc | getState | getKilled | getParent | getChan =>
      exact ⟨_, _, rfl, rfl⟩
  | spin l => exact ⟨(), x, hguard, rfl⟩
  | ask q =>
      cases q with
      | work => exact ⟨[], x, rfl⟩
      | keys => exact ⟨[], x, rfl⟩
      | count => exact ⟨(0 : Nat), x, rfl⟩
      | success => exact ⟨true, x, rfl⟩
      | slot => exact ⟨none, x, rfl⟩
      | ssr => exact ⟨⟨0#32, by decide⟩, x, rfl⟩
  | cli | sti | rte | setNcli | setIntena | setLock | setProc | setState | setKilled | setParent
  | setChan | start => exact ⟨(), _, rfl⟩

/-- A hand-over finds a context to switch to. -/
theorem exists_new (h : Inv s) {old new : Option Pid} {k : Unit → Code Unit}
    (hprog : s.prog = .act (.swtch old new) k) : ∃ c, s.saved new = some c := by
  obtain ⟨-, hguard⟩ := (h.next hprog).1
  cases hstack : s.stack with
  | none =>
      rw [hstack] at hguard
      obtain ⟨p, rfl, hhanded⟩ := hguard
      have hrunning : s.st.state p = .RUNNING := hhanded.rest.2 p rfl
      obtain ⟨c, hc, -⟩ := h.procs p (by rw [hstack]; rintro ⟨⟩) (by rw [hrunning]; rfl)
      exact ⟨c, hc⟩
  | some p =>
      rw [hstack] at hguard
      obtain ⟨rfl, -⟩ := hguard
      obtain ⟨c, hc, -⟩ := h.scheduler (by rw [hstack]; rintro ⟨⟩)
      exact ⟨c, hc⟩

/-- The event gives `ptable.lock` up or hands it over. -/
def passesOn (e : Event) : Prop :=
  e.isRelease = true ∨ ∃ old new, e = .instr (.swtch old new)

/-- **Whoever holds the lock releases it or hands it over**, after finitely many instructions of its
own. -/
theorem inevitable (h : Inv s) (hheld : ptableHeld s = true) :
    Inevitable Step (fun _ e => passesOn e) s := by
  obtain ⟨m, hm⟩ : ∃ m, s.prog = m := ⟨_, rfl⟩
  induction m generalizing s with
  | ret x =>
      have hat : At s.stack [] s.st := by
        have hcode := h.code
        rw [hm] at hcode
        cases hstack : s.stack with
        | none => rw [hstack] at hcode; exact hcode
        | some p => rw [hstack] at hcode; exact hcode.2
      rw [ptableHeld, hat.lock, if_neg List.not_mem_nil] at hheld
      exact nomatch hheld
  | panic msg =>
      have hcode := h.code
      rw [hm] at hcode
      exact hcode.elim
  | act a k ih =>
      have hguard := (h.next hm).1
      refine ⟨?_, fun e t hstep hnot => ?_⟩
      · by_cases hswtch : ∃ old new, a = .swtch old new
        · obtain ⟨old, new, rfl⟩ := hswtch
          obtain ⟨c, hc⟩ := h.exists_new hm
          exact ⟨_, _, .swtch hm hc⟩
        · have hpanic : ∀ msg, a ≠ .panic msg := by
            rintro msg rfl
            exact absurd (hguard.2.symm.trans hheld) Bool.false_ne_true
          obtain ⟨b, y, hdoes⟩ := exists_does hguard (fun old new ha => hswtch ⟨old, new, ha⟩) hpanic
          exact ⟨_, _, .instr hm hdoes⟩
      · have hinv := h.step hstep
        have halt := h.ptableHeld_step hstep
        have hrel : e.isRelease = false := by
          cases he : e.isRelease with
          | false => rfl
          | true => exact absurd (.inl he) hnot
        have hheld' : ptableHeld t = true := by
          have hsum := halt.1
          rw [hrel, hheld] at hsum
          cases ht : ptableHeld t with
          | true => rfl
          | false => rw [ht] at hsum; simp at hsum
        cases hstep with
        | @instr a' k' b y hprog hdoes =>
            obtain ⟨rfl, hk⟩ : a = a' ∧ HEq k k' := by
              have := hm.symm.trans hprog
              injection this with h1 h2
              exact ⟨h1, h2⟩
            obtain rfl := eq_of_heq hk
            exact ih b hinv hheld' rfl
        | swtch hprog hnew => exact absurd (.inr ⟨_, _, rfl⟩) hnot
        | irq i hb => exact nomatch hheld.symm.trans (h.not_ptableHeld hb)
        | syscall ts hstack hprog => exact nomatch hm.symm.trans hprog
        | round hstack hprog => exact nomatch hm.symm.trans hprog

end Inv

/-! ## The hand-over -/

/-- `ptable.lock` is held, no other spin lock is, and `ncli` is one. -/
def OnlyPtable (s : St) : Prop :=
  holding (s.lock .ptable) = true ∧ (∀ l, l ≠ .ptable → (s.lock l).locked = false)
    ∧ s.cpu.ncli = 1

theorem Cli.onlyPtable {R : Rest} {s : St} (h : Handed R s) : OnlyPtable s := by
  refine ⟨h.holding_iff.mpr (.head _), fun l hl => ?_, h.ncli⟩
  rw [h.lock, if_neg (by simpa using hl)]

/-- **Whoever is resumed releases the lock exactly once**: until the lock is taken again it has been
released once if it is free and not yet if it is held, it is free when interrupts are enabled, and
one who holds it goes on to release it or to hand it over. -/
def ReleasedOnce (s : Sys) : Prop :=
  (∀ tr t, Exec Step s tr t → (∀ x ∈ tr, x.2.isAcquire = false) →
    tr.countP (·.2.isRelease) = if ptableHeld t then 0 else 1) ∧
  (∀ tr t, Exec Step s tr t → t.st.cpu.blocked = false → ptableHeld t = false) ∧
  ∀ tr t, Exec Step s tr t → ptableHeld t = true →
    Inevitable Step (fun _ e => Inv.passesOn e) t

theorem Inv.releasedOnce {s : Sys} (h : Inv s) (hheld : ptableHeld s = true) : ReleasedOnce s := by
  refine ⟨fun tr t hrun hacq => ?_, fun tr t hrun => (h.exec hrun).not_ptableHeld,
    fun tr t hrun => (h.exec hrun).inevitable⟩
  have hsum := h.ptableHeld_exec hrun
  have hnone : tr.countP (·.2.isAcquire) = 0 := by
    rw [List.countP_eq_zero]
    exact fun x hx => by simp [hacq x hx]
  rw [hnone, hheld] at hsum
  cases ht : ptableHeld t <;> simp [ht] at hsum ⊢ <;> omega

/-- The panics that guard the hand-over. -/
def guardPanics : List String :=
  ["sched ptable.lock", "sched locks", "sched running", "sched interruptible", "acquire", "release",
    "popcli", "popcli - interruptible"]

/-- The system has stopped with a panic. -/
def Panicked (s : Sys) (msg : String) : Prop := ∃ k, s.prog = .act (.panic msg) k

/-- **The hand-over of `ptable.lock`**, in every state that a run reaches. -/
structure HandsOver (s : Sys) : Prop where
  enabled : s.st.cpu.blocked = false → s.st.cpu.ncli = 0
  swtch : ∀ old new t, Step s (.instr (.swtch old new)) t →
    OnlyPtable s.st ∧ OnlyPtable t.st ∧ ReleasedOnce t
  panics : ∀ msg ∈ guardPanics, ¬ Panicked s msg

/-- **In every run**, whatever the interleaving of contexts and interrupts: interrupts are enabled
only with `ncli` zero, every `swtch` is made with exactly `ptable.lock` held, whoever is resumed
releases it exactly once, and none of the panics that guard this is reached. -/
theorem ptableLock_handsOver (sr : BitVec 32) {tr : List (Sys × Event)} {s : Sys}
    (hrun : Exec Step (boot sr) tr s) : HandsOver s := by
  have hinv : Inv s := (Inv.boot sr).exec hrun
  refine ⟨fun hb => (hinv.isOpen hb).2.ncli, fun old new t hstep => ?_, ?_⟩
  · have hbefore : OnlyPtable s.st := by
      cases hstep with
      | instr hprog hdoes => exact hdoes.elim
      | swtch hprog hnew =>
          obtain ⟨-, hguard⟩ := (hinv.next hprog).1
          cases hstack : s.stack with
          | none =>
              rw [hstack] at hguard
              exact hguard.choose_spec.2.onlyPtable
          | some p =>
              rw [hstack] at hguard
              exact hguard.2.onlyPtable
    have hafter : OnlyPtable t.st := by
      cases hstep with
      | instr hprog hdoes => exact hdoes.elim
      | swtch hprog hnew => exact hbefore
    have hheld : ptableHeld t = true := (Bool.and_eq_true _ _ ▸ hafter.1).1
    exact ⟨hbefore, hafter, (hinv.step hstep).releasedOnce hheld⟩
  · rintro msg hmsg ⟨k, hprog⟩
    obtain ⟨rfl, -⟩ := (hinv.next hprog).1
    exact absurd hmsg (by decide)

/-- What an instruction that asks nothing answers and does. -/
def Instr.run : (a : Instr) → St → Option (a.Resp × St)
  | readSr, s => some (s.cpu.sr, s)
  | cli, s => some ((), { s with cpu := s.cpu.cli })
  | sti, s => some ((), { s with cpu := s.cpu.sti })
  | getNcli, s => some (s.cpu.ncli, s)
  | setNcli n, s => some ((), { s with cpu := { s.cpu with ncli := n } })
  | getIntena, s => some (s.cpu.intena, s)
  | setIntena v, s => some ((), { s with cpu := { s.cpu with intena := v } })
  | getLock l, s => some (s.lock l, s)
  | setLock l v, s => some ((), s.setLock l v)
  | spin l, s => if (s.lock l).locked = false then some ((), s) else none
  | setProc p, s => some ((), { s with proc := p })
  | getState p, s => some (s.state p, s)
  | setState p st, s => some ((), s.setState p st)
  | _, _ => none

theorem Instr.does_of_run {a : Instr} {s t : St} {b : a.Resp} (h : a.run s = some (b, t)) :
    a.Does s b t := by
  cases a with
  | spin l =>
      rw [Instr.run] at h
      split at h
      · obtain ⟨-, rfl⟩ := Prod.mk.inj (Option.some.inj h)
        exact ⟨‹_›, rfl⟩
      · exact nomatch h
  | readSr | getNcli | getIntena | getLock | getState =>
      obtain ⟨rfl, rfl⟩ := Prod.mk.inj (Option.some.inj h)
      exact ⟨rfl, rfl⟩
  | cli | sti | setNcli | setIntena | setLock | setProc | setState =>
      obtain ⟨-, rfl⟩ := Prod.mk.inj (Option.some.inj h)
      rfl
  | _ => exact nomatch h

/-- The next step of the current context, if it is one of these instructions or a round of the
scheduler. -/
def Sys.advance (s : Sys) : Option Sys :=
  match s.prog with
  | .act a k => (a.run s.st).map fun r => ⟨r.2, s.stack, k r.1, a.contexts s.saved⟩
  | .ret () => if s.stack = none then some ⟨s.st, none, scheduler, s.saved⟩ else none
  | .panic _ => none

theorem step_of_advance {s t : Sys} (h : s.advance = some t) : ∃ e, Step s e t := by
  rw [Sys.advance] at h
  split at h
  · rename_i a k hprog
    obtain ⟨⟨b, x⟩, hrun, rfl⟩ := Option.map_eq_some_iff.mp h
    exact ⟨_, .instr hprog (Instr.does_of_run hrun)⟩
  · rename_i hprog
    split at h
    · obtain rfl := Option.some.inj h
      exact ⟨_, .round ‹_› hprog⟩
    · exact nomatch h
  · exact nomatch h

/-- Several such steps. -/
def Sys.advances : Nat → Sys → Option Sys
  | 0, s => some s
  | n + 1, s => s.advance.bind (advances n)

theorem exec_of_advances {n : Nat} {s t : Sys} (h : s.advances n = some t) :
    ∃ tr, Exec Step s tr t := by
  induction n generalizing s with
  | zero =>
      obtain rfl := Option.some.inj h
      exact ⟨[], .nil s⟩
  | succ n ih =>
      obtain ⟨u, hu, hrest⟩ := Option.bind_eq_some_iff.mp h
      obtain ⟨e, hstep⟩ := step_of_advance hu
      obtain ⟨tr, hrun⟩ := ih hrest
      exact ⟨_, Exec.cons hstep hrun⟩

/-- The next instruction is `swtch`. -/
def Sys.atSwtch (s : Sys) : Bool :=
  match s.prog with
  | .act (.swtch _ _) _ => true
  | _ => false

/-- The first process is switched to. -/
theorem ptableLock_handsOver_first :
    ∃ tr s, Exec Step (boot 0x50000000#32) tr s ∧ s.atSwtch = true ∧ HandsOver s := by
  have hat : ((boot 0x50000000#32).advances 21).any Sys.atSwtch = true := by decide +kernel
  obtain ⟨s, hs, hswtch⟩ := (Option.any_eq_true _ _).mp hat
  obtain ⟨tr, hrun⟩ := exec_of_advances hs
  exact ⟨tr, s, hrun, hswtch, ptableLock_handsOver _ hrun⟩

end Xv6.Switch

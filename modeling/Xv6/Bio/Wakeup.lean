import Xv6.Lib.Exec
import Xv6.Bio.Cache

/-! # Processes sleeping on buffers

Any number of processes call `bread`, `bwrite` and `brelse` on one buffer cache. A step is a section
executed under `bcache.lock` (or a disk request under `idelock`); between two of its steps a process
may be preempted, so the steps of all processes interleave freely.

`bget` puts a process to sleep on a busy buffer (`sleep(b, &bcache.lock)`), and it runs again, from
`bget`'s label `loop`, only after something has made it `RUNNABLE`. The `wakeup(b)` of `brelse` is
commented out, so a release leaves the sleepers of its buffer asleep: `neverLost_iff_brelse_unslept`
says that this is the only way in which a run can lose a wakeup. -/

namespace Xv6.Bio

open Lib

/-- Where a process is with respect to the buffer cache. -/
inductive Pc
  /-- Not inside `bread`. -/
  | outside
  /-- In `bget(dev, sector)`, about to run from the label `loop`. -/
  | loop (dev sector : Nat)
  /-- `bget` has returned the buffer; `bread` has yet to test `B_VALID`. -/
  | returned (b : BufId)
  deriving DecidableEq

/-- The part of `struct proc` that the buffer cache uses, with the process's place in `bread` and
the buffers that `bread` gave it and that it has not passed to `brelse` yet. -/
structure Proc where
  state : ProcState
  chan : Option BufId
  pc : Pc
  held : List BufId

/-- The whole system: the cache, the disk, the processes, and the message of a panic. -/
structure Sys where
  cache : Bcache
  disk : Nat → Block
  proc : Nat → Proc
  panicked : Option String

namespace Sys

/-- Change one process. -/
def setProc (s : Sys) (p : Nat) (x : Proc) : Sys := { s with proc := Function.update s.proc p x }

@[simp] theorem setProc_cache (s : Sys) (p : Nat) (x : Proc) : (s.setProc p x).cache = s.cache :=
  rfl

@[simp] theorem setProc_proc_self (s : Sys) (p : Nat) (x : Proc) : (s.setProc p x).proc p = x := by
  simp only [setProc, Function.update_self]

theorem setProc_proc_of_ne (s : Sys) {p q : Nat} (x : Proc) (h : q ≠ p) :
    (s.setProc p x).proc q = s.proc q := by
  simp only [setProc, Function.update_of_ne h]

end Sys

/-- The system after `binit`: no process is inside the buffer cache. -/
def boot (disk : Nat → Block) : Sys where
  cache := binit
  disk := disk
  proc := fun _ => ⟨.RUNNABLE, none, .outside, []⟩
  panicked := none

/-- The steps of the processes. -/
inductive Event
  /-- The process calls `bread(dev, sector)`. -/
  | bread (p dev sector : Nat)
  /-- The process runs `bget` from its label `loop` to its return or to its `sleep`. -/
  | bget (p : Nat)
  /-- `bread` tests `B_VALID`, reads the sector if need be, and returns the buffer. -/
  | fill (p : Nat)
  /-- The process changes the buffer's data and calls `bwrite`. -/
  | bwrite (p : Nat) (b : BufId) (data : Block)
  /-- The process calls `brelse`. -/
  | brelse (p : Nat) (b : BufId)
  /-- Another process kills the process, which ends a sleep of it. -/
  | kill (p : Nat)

/-- `sleep(chan, lk)` of the process: it sleeps until it is made `RUNNABLE`. -/
def sleep (x : Proc) (chan : BufId) : Proc := { x with state := .SLEEPING, chan := some chan }

/-- The tidying of `sleep` when the process runs again. -/
def resume (x : Proc) : Proc := { x with chan := none }

/-- The step of an event, `none` when the event cannot happen. A panic stops the machine. -/
def step (s : Sys) (e : Event) : Option Sys :=
  if s.panicked.isSome then none
  else
    match e with
    | .bread p dev sector =>
        let x := s.proc p
        if x.state = .RUNNABLE ∧ x.pc = .outside then
          some (s.setProc p { x with pc := .loop dev sector })
        else none
    | .bget p =>
        let x := s.proc p
        match x.pc with
        | .loop dev sector =>
            if x.state = .RUNNABLE then
              match bget s.cache dev sector with
              | .got b c =>
                  some ({ s with cache := c }.setProc p { resume x with pc := .returned b })
              | .sleep b => some (s.setProc p (sleep (resume x) b))
              | .noBuffers => some { s with panicked := some "bget: no buffers" }
            else none
        | _ => none
    | .fill p =>
        let x := s.proc p
        match x.pc with
        | .returned b =>
            let x' := { x with pc := Pc.outside, held := b :: x.held }
            if (s.cache.buf b).valid then some (s.setProc p x')
            else
              match iderw s.cache s.disk b with
              | some (c, disk) => some ({ s with cache := c, disk := disk }.setProc p x')
              | none => some { s with panicked := some "iderw" }
        | _ => none
    | .bwrite p b data =>
        let x := s.proc p
        if x.state = .RUNNABLE ∧ x.pc = .outside ∧ b ∈ x.held then
          if (s.cache.buf b).busy then
            match iderw (s.cache.setBuf b { s.cache.buf b with dirty := true, data := data })
                s.disk b with
            | some (c, disk) => some { s with cache := c, disk := disk }
            | none => some { s with panicked := some "iderw" }
          else some { s with panicked := some "bwrite" }
        else none
    | .brelse p b =>
        let x := s.proc p
        if x.state = .RUNNABLE ∧ x.pc = .outside ∧ b ∈ x.held then
          match brelse s.cache b with
          | some c => some ({ s with cache := c }.setProc p { x with held := x.held.erase b })
          | none => some { s with panicked := some "brelse" }
        else none
    | .kill p =>
        let x := s.proc p
        if x.state = .SLEEPING then some (s.setProc p { x with state := .RUNNABLE }) else none

/-- The process sleeps on the channel of the buffer. -/
def SleepsOn (s : Sys) (p : Nat) (b : BufId) : Prop :=
  (s.proc p).state = .SLEEPING ∧ (s.proc p).chan = some b

instance (s : Sys) (p : Nat) (b : BufId) : Decidable (SleepsOn s p b) :=
  inferInstanceAs (Decidable (_ ∧ _))

/-- **No wakeup is lost**: whoever sleeps on a buffer sleeps on a busy one. -/
def NoLostWakeup (s : Sys) : Prop := ∀ p b, SleepsOn s p b → (s.cache.buf b).busy = true

/-- The step condition: a `brelse` releases a buffer on which no process sleeps. -/
def BrelseUnslept (s : Sys) : Event → Prop
  | .brelse _ b => ∀ q, ¬ SleepsOn s q b
  | _ => True

/-! ## One step -/

variable {p : Nat} {s s' : Sys}

/-- A process that is awake after the step, and whose step sets no busy flag back, cannot lose a
wakeup. -/
theorem noLostWakeup_setProc {s : Sys} {x : Proc} (h : NoLostWakeup s)
    (hx : ∀ b, x.state = .SLEEPING → x.chan = some b → (s.cache.buf b).busy = true) :
    NoLostWakeup (s.setProc p x) := by
  rintro q b ⟨hstate, hchan⟩
  rw [Sys.setProc_cache]
  by_cases hq : q = p
  · subst hq
    rw [Sys.setProc_proc_self] at hstate hchan
    exact hx b hstate hchan
  · rw [Sys.setProc_proc_of_ne _ _ hq] at hstate hchan
    exact h q b ⟨hstate, hchan⟩

/-- A change of the cache that clears no busy flag loses no wakeup. -/
theorem noLostWakeup_setCache {s : Sys} {c : Bcache} {disk : Nat → Block} (h : NoLostWakeup s)
    (hc : ∀ b, (s.cache.buf b).busy = true → (c.buf b).busy = true) :
    NoLostWakeup { s with cache := c, disk := disk } :=
  fun p b hsleep => hc b (h p b hsleep)

/-- A pass of `bget` loses no wakeup: it sets busy flags only, and who is put to sleep by it sleeps
on a buffer found busy. -/
theorem noLostWakeup_bget (h : NoLostWakeup s) (hs : step s (.bget p) = some s') :
    NoLostWakeup s' := by
  simp only [step] at hs
  split at hs
  · cases hs
  · split at hs
    · rename_i dev sector hpc
      split at hs
      · rename_i hrun
        split at hs
        · rename_i b c hgot
          obtain rfl : _ = s' := by simpa using hs
          obtain ⟨-, hset, hkeep⟩ := bget_got hgot
          refine noLostWakeup_setProc (noLostWakeup_setCache h fun b' hb' => ?_) fun b' hb' => ?_
          · by_cases hbb : b' = b
            · rw [hbb]; exact hset
            · rw [hkeep b' hbb]; exact hb'
          · simp [resume, hrun] at hb'
        · rename_i b hsleep
          obtain rfl : _ = s' := by simpa using hs
          refine noLostWakeup_setProc h fun b' _ hb' => ?_
          obtain rfl : b = b' := by simpa [sleep] using hb'
          exact (bget_sleep hsleep).1
        · obtain rfl : _ = s' := by simpa using hs
          exact h
      · cases hs
    · cases hs

/-- The end of `bread` loses no wakeup. -/
theorem noLostWakeup_fill (h : NoLostWakeup s) (hs : step s (.fill p) = some s') :
    NoLostWakeup s' := by
  simp only [step] at hs
  split at hs
  · cases hs
  · split at hs
    · rename_i b hpc
      split at hs
      · obtain rfl : _ = s' := by simpa using hs
        exact noLostWakeup_setProc h fun b' hst hch => h p b' ⟨hst, hch⟩
      · split at hs
        · rename_i c disk hide
          obtain rfl : _ = s' := by simpa using hs
          have hcache := @noLostWakeup_setCache s c disk h fun b' hb' => by
            rw [iderw_busy hide]; exact hb'
          exact noLostWakeup_setProc hcache fun b' hst hch => hcache p b' ⟨hst, hch⟩
        · obtain rfl : _ = s' := by simpa using hs
          exact h
    · cases hs

/-- `bwrite` loses no wakeup. -/
theorem noLostWakeup_bwrite {b : BufId} {data : Block} (h : NoLostWakeup s)
    (hs : step s (.bwrite p b data) = some s') : NoLostWakeup s' := by
  simp only [step] at hs
  split at hs
  · cases hs
  · split at hs
    · split at hs
      · split at hs
        · rename_i c disk hide
          obtain rfl : _ = s' := by simpa using hs
          refine noLostWakeup_setCache h fun b' hb' => ?_
          rw [iderw_busy hide]
          by_cases hbb : b' = b
          · subst hbb; simpa using hb'
          · rw [Bcache.setBuf_buf_of_ne _ _ hbb]; exact hb'
        · obtain rfl : _ = s' := by simpa using hs
          exact h
      · obtain rfl : _ = s' := by simpa using hs
        exact h
    · cases hs

/-- What a `brelse` step does: it panics, or it clears the busy flag of its buffer and changes no
other flag and no sleeping process. -/
theorem step_brelse {b : BufId} (hs : step s (.brelse p b) = some s') :
    (s'.cache = s.cache ∧ s'.proc = s.proc ∧ (s.cache.buf b).busy = false) ∨
      ((s'.cache.buf b).busy = false ∧ (∀ b', b' ≠ b → s'.cache.buf b' = s.cache.buf b') ∧
        ∀ q b', SleepsOn s' q b' ↔ SleepsOn s q b') := by
  simp only [step] at hs
  split at hs
  · cases hs
  · split at hs
    · rename_i hp
      split at hs
      · rename_i c hc
        obtain rfl : _ = s' := by simpa using hs
        obtain ⟨-, hclear, hkeep⟩ := brelse_busy hc
        refine .inr ⟨hclear, hkeep, fun q b' => ?_⟩
        by_cases hq : q = p
        · subst hq; simp [SleepsOn, hp.1]
        · rw [SleepsOn, SleepsOn, Sys.setProc_proc_of_ne _ _ hq]
      · rename_i hpanic
        obtain rfl : _ = s' := by simpa using hs
        refine .inl ⟨rfl, rfl, ?_⟩
        rw [brelse] at hpanic
        split at hpanic
        · rename_i hbusy; simpa using hbusy
        · cases hpanic
    · cases hs

/-- **The steps that meet the condition lose no wakeup.** -/
theorem noLostWakeup_step (s : Sys) (e : Event) (s' : Sys) (h : NoLostWakeup s)
    (hok : BrelseUnslept s e) (hs : StepOf step s e s') : NoLostWakeup s' := by
  rw [StepOf] at hs
  cases e with
  | bget p => exact noLostWakeup_bget h hs
  | fill p => exact noLostWakeup_fill h hs
  | bwrite p b data => exact noLostWakeup_bwrite h hs
  | bread p dev sector =>
      simp only [step] at hs
      split at hs
      · cases hs
      · split at hs
        · rename_i hp
          obtain rfl : _ = s' := by simpa using hs
          exact noLostWakeup_setProc h fun b hst _ => by simp [hp.1] at hst
        · cases hs
  | kill p =>
      simp only [step] at hs
      split at hs
      · cases hs
      · split at hs
        · obtain rfl : _ = s' := by simpa using hs
          exact noLostWakeup_setProc h fun b hst _ => by simp at hst
        · cases hs
  | brelse p b =>
      rcases step_brelse hs with ⟨hc, hp, -⟩ | ⟨-, hkeep, hsleep⟩
      · intro q b' hq
        rw [SleepsOn, hp] at hq
        rw [hc]
        exact h q b' hq
      · intro q b' hq
        have hq' := (hsleep q b').mp hq
        have hne : b' ≠ b := fun hbb => hok q (hbb ▸ hq')
        rw [hkeep b' hne]
        exact h q b' hq'

/-- **A release with a sleeper loses its wakeup.** -/
theorem lostWakeup_of_brelse (s : Sys) (e : Event) (s' : Sys) (hbad : ¬ BrelseUnslept s e)
    (hs : StepOf step s e s') : ¬ NoLostWakeup s' := by
  cases e with
  | brelse p b =>
      rw [BrelseUnslept] at hbad
      obtain ⟨q, hq⟩ := not_forall_not.mp hbad
      intro hgood
      rcases step_brelse hs with ⟨hc, hp, hfree⟩ | ⟨hclear, -, hsleep⟩
      · have hq' : SleepsOn s' q b := by rw [SleepsOn, hp]; exact hq
        have := hgood q b hq'
        rw [hc, hfree] at this
        cases this
      · have := hgood q b ((hsleep q b).mpr hq)
        rw [hclear] at this
        cases this
  | _ => exact absurd trivial hbad

/-! ## Whole runs -/

/-- **When no wakeup on a buffer is lost.** A run of the buffer cache from boot stays clear of
processes that sleep on a buffer that is not busy exactly when none of its `brelse` steps releases
a buffer on which a process sleeps. -/
theorem neverLost_iff_brelse_unslept (disk : Nat → Block) {tr : List (Sys × Event)} {s : Sys}
    (hrun : Exec (StepOf step) (boot disk) tr s) :
    (∀ x ∈ visited tr s, NoLostWakeup x) ↔ ∀ p ∈ tr, BrelseUnslept p.1 p.2 := by
  have hboot : NoLostWakeup (boot disk) := by
    rintro p b ⟨hstate, -⟩
    cases hstate
  exact Exec.forall_visited_iff (fun _ h => h) noLostWakeup_step lostWakeup_of_brelse hboot hrun

/-- The disk of zero bytes. -/
def zeroDisk : Nat → Block := fun _ => Bytes.zero

/-- The buffer at the old end of the list after `binit`, the first one to be recycled. -/
def oldest : BufId := ⟨0, by decide⟩

/-- Two processes read the same sector; the second one goes to sleep and the first one releases the
buffer. -/
def contendedRun : List Event :=
  [.bread 0 1 7, .bget 0, .fill 0, .bread 1 1 7, .bget 1, .brelse 0 oldest]

/-- **A lost wakeup.** After the contended run the second process sleeps on a buffer that is not
busy. -/
theorem contendedRun_loses_wakeup :
    ¬ ∀ (disk : Nat → Block) (tr : List (Sys × Event)) (s : Sys),
      Exec (StepOf step) (boot disk) tr s → NoLostWakeup s := by
  intro hall
  have hend : (runAll step (boot zeroDisk) contendedRun).any
      (fun s => decide (SleepsOn s 1 oldest) && !(s.cache.buf oldest).busy) = true := by decide
  obtain ⟨s, hs, hlost⟩ := (Option.any_eq_true _ _).mp hend
  rw [Bool.and_eq_true, decide_eq_true_eq, Bool.not_eq_true'] at hlost
  have hgood := hall zeroDisk _ s (exec_of_runAll step hs) 1 oldest hlost.1
  rw [hlost.2] at hgood
  cases hgood

/-- Two processes read two sectors, and the first one releases its buffer. -/
def quietRun : List Event :=
  [.bread 0 1 7, .bget 0, .fill 0, .bread 1 1 8, .bget 1, .fill 1, .brelse 0 oldest]

/-- The quiet run is a run, so the exact condition applies to it. -/
theorem neverLost_iff_on_quietRun :
    ∃ s, Exec (StepOf step) (boot zeroDisk) (traceAll step (boot zeroDisk) quietRun) s ∧
      ((∀ x ∈ visited (traceAll step (boot zeroDisk) quietRun) s, NoLostWakeup x) ↔
        ∀ p ∈ traceAll step (boot zeroDisk) quietRun, BrelseUnslept p.1 p.2) := by
  obtain ⟨s, hs⟩ := Option.isSome_iff_exists.mp
    (by decide : (runAll step (boot zeroDisk) quietRun).isSome = true)
  have hrun := exec_of_runAll step hs
  exact ⟨s, hrun, neverLost_iff_brelse_unslept zeroDisk hrun⟩

end Xv6.Bio

import Xv6.Lib.Exec
import Xv6.Lib.Ring
import Xv6.Kernel.Param

/-! # Pipes

`pipe.c` as a transition system: any number of processes call `pipewrite` and `piperead` on one
pipe, its ends are closed and processes are killed. A process that holds `p->lock` goes on byte by
byte; all else happens while the lock is free, since interrupts are blocked while it is held. A
process sleeps on `&p->nread` or on `&p->nwrite`, and tests its condition again when it has been
woken up and has taken the lock.

Two histories are recorded beside the state: the bytes stored and the bytes delivered. -/

namespace Xv6.Pipe

open Lib

open Function (update update_of_ne update_self)

/-- `PIPESIZE`. -/
def PIPESIZE : Nat := 512

/-- The channels that processes sleep on. -/
inductive Chan
  /-- `&p->nread`: readers wait here. -/
  | nread
  /-- `&p->nwrite`: writers wait here. -/
  | nwrite
  deriving DecidableEq

/-- Where a process is in its call. -/
inductive Call
  /-- In no call on the pipe. -/
  | none
  /-- In `pipewrite` of `n` bytes, before `acquire`, with the given bytes left. -/
  | writeWait (n : Int) (rest : List UInt8)
  /-- In `pipewrite` with the lock. -/
  | writeLoop (n : Int) (rest : List UInt8)
  /-- In `piperead` of `n` bytes, before `acquire`. -/
  | readWait (n : Int)
  /-- In the loop of `piperead` that waits for data, with the lock. -/
  | readTest (n : Int)
  /-- In the loop of `piperead` that copies data, with the lock, after `i` bytes. -/
  | readCopy (n : Int) (i : Nat)

/-- The process is in no call on the pipe. -/
def Call.isNone : Call → Bool
  | .none => true
  | _ => false

/-- **A pipe** and the processes that use it. -/
structure PipeState where
  ring : Ring UInt8 32 PIPESIZE
  readopen : Bool
  writeopen : Bool
  /-- The holder of `p->lock`. -/
  lock : Option Nat
  call : Nat → Call
  /-- The channel of a process in the state `SLEEPING`. -/
  asleep : Nat → Option Chan
  killed : Nat → Bool
  /-- The page of the pipe has been freed. -/
  freed : Bool
  /-- All bytes stored so far. -/
  stored : List UInt8
  /-- All bytes delivered so far. -/
  delivered : List UInt8

/-- What happens next. -/
inductive PipeEvent
  /-- A process calls `pipewrite(p, addr, n)`; the bytes are those at `addr`. -/
  | write (i : Nat) (n : Int) (addr : List UInt8)
  /-- A process calls `piperead(p, addr, n)`. -/
  | read (i : Nat) (n : Int)
  /-- A process in a call goes on. -/
  | act (i : Nat)
  /-- `pipeclose(p, writable)`. -/
  | close (writable : Bool)
  /-- A process is killed. -/
  | kill (i : Nat)
  /-- A killed process leaves its call through `exit` in the timer interrupt. -/
  | exit (i : Nat)

variable {c : Call} {s : PipeState} {i : Nat}

theorem Call.eq_none_of_isNone (h : c.isNone = true) : c = .none := by
  cases c with
  | none => rfl
  | _ => cases h

namespace PipeState

/-- Change where a process is. -/
def setCall (s : PipeState) (i : Nat) (c : Call) : PipeState :=
  { s with call := update s.call i c }

/-- `wakeup(chan)`. -/
def wakeup (s : PipeState) (c : Chan) : PipeState :=
  { s with asleep := fun j => if s.asleep j = some c then none else s.asleep j }

/-- `release(&p->lock)` and return to the caller. -/
def leave (s : PipeState) (i : Nat) : PipeState := { s.setCall i .none with lock := none }

/-- `sleep(chan, &p->lock)`; the process will start with `acquire` again. -/
def sleep (s : PipeState) (i : Nat) (c : Chan) (again : Call) : PipeState :=
  { s.setCall i again with asleep := update s.asleep i (some c), lock := none }

/-- The next step of a process in a call. -/
def act (s : PipeState) (i : Nat) : Option PipeState :=
  match s.call i with
  | .none => none
  | .writeWait n rest =>
      if s.lock = none ∧ s.asleep i = none then
        some { s.setCall i (.writeLoop n rest) with lock := some i }
      else none
  | .writeLoop _ [] => some ((s.wakeup .nread).leave i)
  | .writeLoop n (b :: rest) =>
      if s.ring.Full then
        if s.readopen = false ∨ s.killed i = true then some (s.leave i)
        else some ((s.wakeup .nread).sleep i .nwrite (.writeWait n (b :: rest)))
      else
        some { s.setCall i (.writeLoop n rest) with
          ring := s.ring.push b, stored := s.stored ++ [b] }
  | .readWait n =>
      if s.lock = none ∧ s.asleep i = none then
        some { s.setCall i (.readTest n) with lock := some i }
      else none
  | .readTest n =>
      if s.ring.Empty ∧ s.writeopen = true then
        if s.killed i = true then some (s.leave i)
        else some (s.sleep i .nread (.readWait n))
      else some (s.setCall i (.readCopy n 0))
  | .readCopy n k =>
      if (k : Int) < n ∧ ¬ s.ring.Empty then
        some { s.setCall i (.readCopy n (k + 1)) with
          ring := s.ring.pop, delivered := s.delivered ++ [s.ring.front] }
      else some ((s.wakeup .nwrite).leave i)

/-- The value that the call of a process returns in its next step, if it returns then. -/
def result (s : PipeState) (i : Nat) : Option Int :=
  match s.call i with
  | .writeLoop n [] => some n
  | .writeLoop _ (_ :: _) =>
      if s.ring.Full ∧ (s.readopen = false ∨ s.killed i = true) then some (-1) else none
  | .readTest _ =>
      if (s.ring.Empty ∧ s.writeopen = true) ∧ s.killed i = true then some (-1) else none
  | .readCopy n k => if (k : Int) < n ∧ ¬ s.ring.Empty then none else some k
  | _ => none

/-- `pipeclose`: the other side is woken up, and the second one to close frees the pipe. -/
def close (s : PipeState) (writable : Bool) : PipeState :=
  let t := if writable then { s with writeopen := false }.wakeup .nread
    else { s with readopen := false }.wakeup .nwrite
  { t with freed := !t.readopen && !t.writeopen }

/-- **The steps of the system.** -/
def step (s : PipeState) : PipeEvent → Option PipeState
  | .act i => if s.freed = false then s.act i else none
  | e =>
      if s.freed = false ∧ s.lock = none then
        match e with
        | .write i n addr =>
            if addr.length = n.toNat ∧ (s.call i).isNone = true then
              some (s.setCall i (.writeWait n addr))
            else none
        | .read i n => if (s.call i).isNone = true then some (s.setCall i (.readWait n)) else none
        | .close writable => some (s.close writable)
        | .kill i =>
            some { s with
              killed := update s.killed i true
              asleep := update s.asleep i none }
        | .exit i =>
            if s.killed i = true ∧ s.asleep i = none then some (s.setCall i .none) else none
        | .act _ => none
      else none

/-- A new pipe, as `pipealloc` leaves it; its page has any contents, and processes may have been
killed before. -/
def new (data : Nat → UInt8) (killed : Nat → Bool) : PipeState where
  ring := ⟨data, 0#32, 0#32⟩
  readopen := true
  writeopen := true
  lock := none
  call _ := .none
  asleep _ := none
  killed := killed
  freed := false
  stored := []
  delivered := []

/-! ## What a step does -/

/-- **The steps of a process in a call**, by the place where it is. -/
inductive Acts (s : PipeState) (i : Nat) : PipeState → Prop
  | acquireWrite {n : Int} {rest : List UInt8} (hcall : s.call i = .writeWait n rest)
      (hlock : s.lock = none) (hawake : s.asleep i = none) :
      Acts s i { s.setCall i (.writeLoop n rest) with lock := some i }
  | writeDone {n : Int} (hcall : s.call i = .writeLoop n []) : Acts s i ((s.wakeup .nread).leave i)
  | writeFail {n : Int} {b : UInt8} {rest : List UInt8} (hcall : s.call i = .writeLoop n (b :: rest))
      (hfull : s.ring.Full) (hend : s.readopen = false ∨ s.killed i = true) : Acts s i (s.leave i)
  | writeSleep {n : Int} {b : UInt8} {rest : List UInt8}
      (hcall : s.call i = .writeLoop n (b :: rest)) (hfull : s.ring.Full) (hopen : s.readopen = true) :
      Acts s i ((s.wakeup .nread).sleep i .nwrite (.writeWait n (b :: rest)))
  | store {n : Int} {b : UInt8} {rest : List UInt8} (hcall : s.call i = .writeLoop n (b :: rest))
      (hroom : ¬ s.ring.Full) :
      Acts s i { s.setCall i (.writeLoop n rest) with
        ring := s.ring.push b, stored := s.stored ++ [b] }
  | acquireRead {n : Int} (hcall : s.call i = .readWait n) (hlock : s.lock = none)
      (hawake : s.asleep i = none) : Acts s i { s.setCall i (.readTest n) with lock := some i }
  | readFail {n : Int} (hcall : s.call i = .readTest n) : Acts s i (s.leave i)
  | readSleep {n : Int} (hcall : s.call i = .readTest n) (hempty : s.ring.Empty)
      (hopen : s.writeopen = true) : Acts s i (s.sleep i .nread (.readWait n))
  | readStart {n : Int} (hcall : s.call i = .readTest n)
      (hdata : s.ring.Empty → s.writeopen = false) : Acts s i (s.setCall i (.readCopy n 0))
  | take {n : Int} {k : Nat} (hcall : s.call i = .readCopy n k) (hdata : ¬ s.ring.Empty) :
      Acts s i { s.setCall i (.readCopy n (k + 1)) with
        ring := s.ring.pop, delivered := s.delivered ++ [s.ring.front] }
  | readDone {n : Int} {k : Nat} (hcall : s.call i = .readCopy n k) :
      Acts s i ((s.wakeup .nwrite).leave i)

theorem acts_of_act {s t : PipeState} {i : Nat} (h : s.act i = some t) : Acts s i t := by
  unfold act at h
  split at h
  · cases h
  · rename_i n rest hcall
    split at h
    · rename_i hfree
      cases h
      exact .acquireWrite hcall hfree.1 hfree.2
    · cases h
  · rename_i n hcall
    cases h
    exact .writeDone hcall
  · rename_i n b rest hcall
    split at h
    · rename_i hfull
      split at h
      · rename_i hend
        cases h
        exact .writeFail hcall hfull hend
      · rename_i hend
        cases h
        refine .writeSleep hcall hfull ?_
        rw [not_or, Bool.not_eq_false] at hend
        exact hend.1
    · rename_i hroom
      cases h
      exact .store hcall hroom
  · rename_i n hcall
    split at h
    · rename_i hfree
      cases h
      exact .acquireRead hcall hfree.1 hfree.2
    · cases h
  · rename_i n hcall
    split at h
    · rename_i hwait
      split at h
      · cases h
        exact .readFail hcall
      · cases h
        exact .readSleep hcall hwait.1 hwait.2
    · rename_i hwait
      cases h
      refine .readStart hcall fun hempty => ?_
      by_contra hopen
      exact hwait ⟨hempty, by simpa using hopen⟩
  · rename_i n k hcall
    split at h
    · rename_i hmore
      cases h
      exact .take hcall hmore.2
    · cases h
      exact .readDone hcall

/-- **The steps of the system.** -/
inductive Steps (s : PipeState) : PipeEvent → PipeState → Prop
  | act {i : Nat} {t : PipeState} (h : Acts s i t) : Steps s (.act i) t
  | write {i : Nat} {n : Int} {addr : List UInt8} (hlock : s.lock = none) (hcall : s.call i = .none) :
      Steps s (.write i n addr) (s.setCall i (.writeWait n addr))
  | read {i : Nat} {n : Int} (hlock : s.lock = none) (hcall : s.call i = .none) :
      Steps s (.read i n) (s.setCall i (.readWait n))
  | close {w : Bool} (hlock : s.lock = none) : Steps s (.close w) (s.close w)
  | kill {i : Nat} (hlock : s.lock = none) :
      Steps s (.kill i) { s with
        killed := update s.killed i true
        asleep := update s.asleep i none }
  | exit {i : Nat} (hlock : s.lock = none) : Steps s (.exit i) (s.setCall i .none)

theorem steps_of_step {s t : PipeState} {e : PipeEvent} (h : s.step e = some t) : Steps s e t := by
  cases e with
  | act i =>
      rw [step] at h
      split at h
      · exact .act (acts_of_act h)
      · cases h
  | write i n addr =>
      simp only [step] at h
      split at h
      · rename_i hfree
        split at h
        · rename_i hcall
          cases h
          exact .write hfree.2 (Call.eq_none_of_isNone hcall.2)
        · cases h
      · cases h
  | read i n =>
      simp only [step] at h
      split at h
      · rename_i hfree
        split at h
        · rename_i hcall
          cases h
          exact .read hfree.2 (Call.eq_none_of_isNone hcall)
        · cases h
      · cases h
  | close w =>
      simp only [step] at h
      split at h
      · rename_i hfree
        cases h
        exact .close hfree.2
      · cases h
  | kill i =>
      simp only [step] at h
      split at h
      · rename_i hfree
        cases h
        exact .kill hfree.2
      · cases h
  | exit i =>
      simp only [step] at h
      split at h
      · rename_i hfree
        split at h
        · cases h
          exact .exit hfree.2
        · cases h
      · cases h

end PipeState

/-! ## The stream -/

/-- The process holds the lock at this place. -/
def Call.holds : Call → Prop
  | .writeLoop _ _ | .readTest _ | .readCopy _ _ => True
  | _ => False

/-- **The invariant of the stream.** -/
structure StreamInv (s : PipeState) : Prop where
  count : s.ring.count ≤ PIPESIZE
  /-- What has been stored and not delivered is in the ring. -/
  stream : s.stored = s.delivered ++ s.ring.content
  locked : ∀ i, (s.call i).holds → s.lock = some i
  /-- A reader that has left its first loop found data, or the write end closed. -/
  copy : ∀ i n, s.call i = .readCopy n 0 → s.ring.Empty → s.writeopen = false

theorem streamInv_new (data : Nat → UInt8) (killed : Nat → Bool) :
    StreamInv (PipeState.new data killed) := by
  refine ⟨?_, ?_, fun i h => h.elim, fun i n h => ?_⟩
  · show (0#32 - 0#32 : BitVec 32).toNat ≤ PIPESIZE
    decide
  · have hcount : (PipeState.new data killed).ring.count = 0 := by
      show (0#32 - 0#32 : BitVec 32).toNat = 0
      decide
    have hnil : (PipeState.new data killed).ring.content = [] :=
      List.length_eq_zero_iff.mp (by rw [Ring.length_content, hcount])
    rw [hnil]
    rfl
  · cases h

theorem pipesize_dvd : PIPESIZE ∣ 2 ^ 32 := by decide

theorem pipesize_lt : PIPESIZE < 2 ^ 32 := by decide

/-- The places of the processes after one of them has moved to a place without the lock. -/
theorem StreamInv.locked_of_leave (h : StreamInv s) (hold : (s.call i).holds) (hc : ¬ c.holds)
    {j : Nat} (hj : (update s.call i c j).holds) :
    none = some j := by
  by_cases hij : j = i
  · rw [hij, update_self] at hj
    exact absurd hj hc
  · rw [update_of_ne hij] at hj
    have := h.locked i hold
    rw [h.locked j hj] at this
    exact absurd (Option.some.inj this) hij

/-- The places of the processes after the holder of the lock has moved on. -/
theorem StreamInv.locked_of_move (h : StreamInv s) (hlock : s.lock = some i ∨ s.lock = none)
    {j : Nat} (hj : (update s.call i c j).holds) :
    some i = some j := by
  by_cases hij : j = i
  · rw [hij]
  · rw [update_of_ne hij] at hj
    rw [h.locked j hj] at hlock
    rcases hlock with heq | heq
    · exact heq.symm
    · cases heq

/-- A reader in its second loop when another process moves. -/
theorem StreamInv.copy_of_move (h : StreamInv s) (hc : ∀ n, c ≠ .readCopy n 0) {j : Nat} {n : Int}
    (hj : update s.call i c j = .readCopy n 0) (hempty : s.ring.Empty) :
    s.writeopen = false := by
  by_cases hij : j = i
  · rw [hij, update_self] at hj
    exact absurd hj (hc n)
  · rw [update_of_ne hij] at hj
    exact h.copy j n hj hempty

/-- Only the holder of the lock can be in its second loop. -/
theorem StreamInv.not_copy (h : StreamInv s) (hlock : s.lock = some i) (hc : ∀ n, c ≠ .readCopy n 0)
    {j : Nat} {n : Int} :
    update s.call i c j ≠ .readCopy n 0 := by
  intro hj
  by_cases hij : j = i
  · rw [hij, update_self] at hj
    exact hc n hj
  · rw [update_of_ne hij] at hj
    have hheld := h.locked j (by rw [hj]; trivial)
    rw [hlock] at hheld
    exact hij (Option.some.inj hheld).symm

/-- **A process in a call keeps the invariant.** -/
theorem StreamInv.act {s t : PipeState} (h : StreamInv s) (ha : PipeState.Acts s i t) :
    StreamInv t := by
  cases ha with
  | acquireWrite hcall hlock _ =>
      exact ⟨h.count, h.stream, fun j hj => h.locked_of_move (.inr hlock) hj,
        fun j n hj => h.copy_of_move (fun _ => Call.noConfusion) hj⟩
  | writeDone hcall =>
      exact ⟨h.count, h.stream, fun j hj => h.locked_of_leave (by rw [hcall]; trivial) id hj,
        fun j n hj => h.copy_of_move (fun _ => Call.noConfusion) hj⟩
  | writeFail hcall _ _ =>
      exact ⟨h.count, h.stream, fun j hj => h.locked_of_leave (by rw [hcall]; trivial) id hj,
        fun j n hj => h.copy_of_move (fun _ => Call.noConfusion) hj⟩
  | writeSleep hcall _ _ =>
      exact ⟨h.count, h.stream, fun j hj => h.locked_of_leave (by rw [hcall]; trivial) id hj,
        fun j n hj => h.copy_of_move (fun _ => Call.noConfusion) hj⟩
  | @store n b rest hcall hroom =>
      have hlock := h.locked i (by rw [hcall]; trivial)
      have hlt : s.ring.count < PIPESIZE :=
        lt_of_le_of_ne h.count fun heq => hroom ((Ring.full_iff pipesize_lt).mpr heq)
      refine ⟨?_, ?_, fun j hj => hlock.trans (h.locked_of_move (.inl hlock) hj),
        fun j n hj => absurd hj (h.not_copy hlock fun _ => Call.noConfusion)⟩
      · show (s.ring.push b).count ≤ PIPESIZE
        have hsmall : s.ring.count + 1 < 2 ^ 32 := lt_of_le_of_lt hlt pipesize_lt
        rw [Ring.count_push hsmall]
        exact hlt
      · show s.stored ++ [b] = s.delivered ++ (s.ring.push b).content
        rw [Ring.content_push pipesize_dvd pipesize_lt h.count hroom, h.stream, List.append_assoc]
  | acquireRead hcall hlock _ =>
      exact ⟨h.count, h.stream, fun j hj => h.locked_of_move (.inr hlock) hj,
        fun j n hj => h.copy_of_move (fun _ => Call.noConfusion) hj⟩
  | readFail hcall =>
      exact ⟨h.count, h.stream, fun j hj => h.locked_of_leave (by rw [hcall]; trivial) id hj,
        fun j n hj => h.copy_of_move (fun _ => Call.noConfusion) hj⟩
  | readSleep hcall _ _ =>
      exact ⟨h.count, h.stream, fun j hj => h.locked_of_leave (by rw [hcall]; trivial) id hj,
        fun j n hj => h.copy_of_move (fun _ => Call.noConfusion) hj⟩
  | @readStart n hcall hdata =>
      have hlock := h.locked i (by rw [hcall]; trivial)
      refine ⟨h.count, h.stream, fun j hj => hlock.trans (h.locked_of_move (.inl hlock) hj),
        fun j n hj hempty => hdata hempty⟩
  | @take n k hcall hdata =>
      have hlock := h.locked i (by rw [hcall]; trivial)
      have hpop := Ring.count_pop hdata
      refine ⟨?_, ?_, fun j hj => hlock.trans (h.locked_of_move (.inl hlock) hj),
        fun j n hj => absurd hj (h.not_copy hlock fun m hm => by injection hm with _ hm; cases hm)⟩
      · show (s.ring.pop).count ≤ PIPESIZE
        have := h.count
        omega
      · show s.stored = s.delivered ++ [s.ring.front] ++ (s.ring.pop).content
        rw [h.stream, Ring.content_pop pipesize_dvd hdata, List.append_assoc]
        rfl
  | readDone hcall =>
      exact ⟨h.count, h.stream, fun j hj => h.locked_of_leave (by rw [hcall]; trivial) id hj,
        fun j n hj => h.copy_of_move (fun _ => Call.noConfusion) hj⟩

/-- **Every step keeps the invariant.** -/
theorem StreamInv.step {s t : PipeState} {e : PipeEvent} (h : StreamInv s)
    (hstep : PipeState.Steps s e t) : StreamInv t := by
  -- while the lock is free no process is at a place where it holds it
  have hfree : s.lock = none → ∀ {i : Nat} {c : Call}, ¬ c.holds → ∀ j,
      (update s.call i c j).holds → s.lock = some j := by
    intro hlock i c hc j hj
    by_cases hij : j = i
    · rw [hij, update_self] at hj
      exact absurd hj hc
    · rw [update_of_ne hij] at hj
      exact h.locked j hj
  cases hstep with
  | act ha => exact h.act ha
  | write hlock _ =>
      exact ⟨h.count, h.stream, hfree hlock id,
        fun j n hj => h.copy_of_move (fun _ => Call.noConfusion) hj⟩
  | read hlock _ =>
      exact ⟨h.count, h.stream, hfree hlock id,
        fun j n hj => h.copy_of_move (fun _ => Call.noConfusion) hj⟩
  | @close w hlock =>
      cases w with
      | true => exact ⟨h.count, h.stream, h.locked, fun _ _ _ _ => rfl⟩
      | false => exact ⟨h.count, h.stream, h.locked, h.copy⟩
  | kill hlock => exact ⟨h.count, h.stream, h.locked, h.copy⟩
  | exit hlock =>
      exact ⟨h.count, h.stream, hfree hlock id,
        fun j n hj => h.copy_of_move (fun _ => Call.noConfusion) hj⟩

/-- A run from a new pipe. -/
abbrev PipeRun (data : Nat → UInt8) (killed : Nat → Bool) (tr : List (PipeState × PipeEvent))
    (s : PipeState) : Prop :=
  Exec (StepOf PipeState.step) (PipeState.new data killed) tr s

theorem StreamInv.of_run {data : Nat → UInt8} {killed : Nat → Bool}
    {tr : List (PipeState × PipeEvent)} (hrun : PipeRun data killed tr s) :
    StreamInv s :=
  Exec.invariant (fun _ _ _ h hstep => h.step (PipeState.steps_of_step hstep)) hrun
    (streamInv_new data killed)

/-- A process in `piperead` that asked for some bytes. -/
def Call.wantsBytes : Call → Prop
  | .readTest n | .readCopy n _ => 0 < n
  | _ => False

/-- **A pipe is a FIFO stream of bytes.** In every run the counters are at most `PIPESIZE` apart, the
bytes delivered are a prefix of the bytes stored with the rest of them in the ring, and a `piperead`
of some bytes returns zero only when the ring is empty and the write end is closed. -/
theorem pipe_stream {data : Nat → UInt8} {killed : Nat → Bool} {tr : List (PipeState × PipeEvent)}
    {s : PipeState} (hrun : PipeRun data killed tr s) :
    (s.ring.nwrite - s.ring.nread).toNat ≤ PIPESIZE ∧ s.delivered <+: s.stored ∧
      s.stored = s.delivered ++ s.ring.content ∧
      ∀ t i, (t, .act i) ∈ tr → (t.call i).wantsBytes → t.result i = some 0 →
        t.ring.Empty ∧ t.writeopen = false := by
  have hs := StreamInv.of_run hrun
  refine ⟨hs.count, ⟨_, hs.stream.symm⟩, hs.stream, fun t i hmem hwants hzero => ?_⟩
  obtain ⟨pre, hpre, -⟩ := Exec.exists_upto hrun hmem
  have ht := StreamInv.of_run hpre
  unfold PipeState.result at hzero
  cases hcall : t.call i with
  | readTest n =>
      rw [hcall] at hzero
      simp only at hzero
      split at hzero <;> cases hzero
  | readCopy n k =>
      rw [hcall] at hzero hwants
      simp only at hzero
      split at hzero
      · cases hzero
      · rename_i hmore
        have hk : k = 0 := by
          have := Option.some.inj hzero
          omega
        subst hk
        have hempty : t.ring.Empty := by
          by_contra hdata
          exact hmore ⟨hwants, hdata⟩
        exact ⟨hempty, ht.copy i n hcall hempty⟩
  | _ =>
      rw [hcall] at hwants
      exact hwants.elim

/-- One process writes two bytes, and another one reads up to five. -/
def twoBytes : List PipeEvent :=
  [.write 0 2 [7, 8], .act 0, .act 0, .act 0, .act 0,
    .read 1 5, .act 1, .act 1, .act 1, .act 1, .act 1]

/-- The state after `twoBytes`. -/
def afterTwoBytes : Option PipeState :=
  runAll PipeState.step (PipeState.new (fun _ => 0) fun _ => false) twoBytes

/-- A run in which the two bytes are delivered. -/
theorem pipe_stream_twoBytes :
    ∃ tr s, PipeRun (fun _ => 0) (fun _ => false) tr s ∧ s.delivered = [7, 8] ∧
      s.stored = s.delivered ++ s.ring.content := by
  obtain ⟨s, hs⟩ : ∃ s, afterTwoBytes = some s := Option.isSome_iff_exists.mp (by decide +kernel)
  have hdelivered : afterTwoBytes.map PipeState.delivered = some [7, 8] := by decide +kernel
  have hrun := exec_of_runAll PipeState.step hs
  refine ⟨_, s, hrun, ?_, (pipe_stream hrun).2.2.1⟩
  rw [hs, Option.map_some] at hdelivered
  exact Option.some.inj hdelivered

end Xv6.Pipe

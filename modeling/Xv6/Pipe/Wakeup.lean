import Xv6.Pipe.Stream

/-! # Wakeups on a pipe

Whether a process can sleep on a pipe although what it waits for is there. A reader can: a
`pipewrite` that finds the ring full returns `-1` to a killed process without a `wakeup` for the
bytes it has stored before. -/

namespace Xv6.Pipe

open Lib

open Function (update update_of_ne update_self)

/-- The processes asleep have something to wait for: readers for data from an open write end,
writers for room before an open read end. -/
def Waiting (s : PipeState) : Prop :=
  (∀ i, s.asleep i = some .nread → s.ring.Empty ∧ s.writeopen = true) ∧
    ∀ i, s.asleep i = some .nwrite → s.ring.Full ∧ s.readopen = true

/-- **No wakeup has been lost.** -/
def NoLostWakeup (s : PipeState) : Prop := s.lock = none → Waiting s

/-- A process may take the lock in `pipewrite`: if it will find the ring full while a reader sleeps,
it has not been killed and the read end is open. -/
def WriteReady (s : PipeState) : PipeEvent → Prop
  | .act i =>
      match s.call i with
      | .writeWait _ rest =>
          (∃ j, s.asleep j = some .nread) → PIPESIZE < s.ring.count + rest.length →
            s.killed i = false ∧ s.readopen = true
      | _ => True
  | _ => True

/-- What holds about the sleeping processes while a process is in its call with the lock. -/
def WaitingAt (s : PipeState) (i : Nat) : Call → Prop
  | .writeLoop _ rest =>
      (∀ j, s.asleep j = some .nread → s.writeopen = true ∧
        (PIPESIZE < s.ring.count + rest.length → s.killed i = false ∧ s.readopen = true)) ∧
      ∀ j, s.asleep j = some .nwrite → s.ring.Full ∧ s.readopen = true
  | .readTest _ => Waiting s
  | .readCopy _ _ =>
      (∀ j, s.asleep j ≠ some .nread) ∧ ∀ j, s.asleep j = some .nwrite → s.readopen = true
  | _ => True

/-- **The invariant of the wakeups.** -/
structure WakeInv (s : PipeState) : Prop where
  stream : StreamInv s
  free : s.lock = none → Waiting s
  held : ∀ i, s.lock = some i → WaitingAt s i (s.call i)

theorem wakeInv_new (data : Nat → UInt8) (killed : Nat → Bool) :
    WakeInv (PipeState.new data killed) :=
  ⟨streamInv_new data killed, fun _ => ⟨fun _ h => (nomatch h), fun _ h => (nomatch h)⟩,
    fun _ h => (nomatch h)⟩

/-! ## Processes that sleep or are woken up -/

variable {s : PipeState}

theorem asleep_wakeup {c c' : Chan} {j : Nat} (h : (s.wakeup c).asleep j = some c') :
    s.asleep j = some c' ∧ c' ≠ c := by
  simp only [PipeState.wakeup] at h
  split at h
  · cases h
  · rename_i hne
    refine ⟨h, ?_⟩
    rintro rfl
    exact hne h

theorem asleep_update {i j : Nat} {c c' : Chan}
    (h : update s.asleep i (some c) j = some c') : c' = c ∨ s.asleep j = some c' := by
  by_cases hij : j = i
  · rw [hij, update_self] at h
    exact .inl (Option.some.inj h).symm
  · rw [update_of_ne hij] at h
    exact .inr h

theorem asleep_update_none {i j : Nat} {c : Chan} (h : update s.asleep i none j = some c) :
    s.asleep j = some c := by
  by_cases hij : j = i
  · rw [hij, update_self] at h
    cases h
  · rwa [update_of_ne hij] at h

/-! ## The steps -/

/-- **A process in a call keeps the invariant** if it meets the condition. -/
theorem WakeInv.act {s t : PipeState} {i : Nat} (h : WakeInv s) (ha : PipeState.Acts s i t)
    (hready : WriteReady s (.act i)) : WakeInv t := by
  have hstream := h.stream.act ha
  -- the process that acts holds the lock, or the lock is free
  have hheld : (s.call i).holds → WaitingAt s i (s.call i) := fun hc => h.held i (h.stream.locked i hc)
  cases ha with
  | @acquireWrite n rest hcall hlock hawake =>
      have hw := h.free hlock
      refine ⟨hstream, fun hnone => (nomatch hnone), fun j hj => ?_⟩
      obtain rfl : i = j := Option.some.inj hj
      simp only [WriteReady, hcall] at hready
      show WaitingAt _ i (update s.call i _ i)
      rw [update_self]
      exact ⟨fun j hj => ⟨(hw.1 j hj).2, hready ⟨j, hj⟩⟩, hw.2⟩
  | @writeDone n hcall =>
      rw [hcall] at hheld
      have hat := hheld trivial
      refine ⟨hstream, fun _ => ⟨fun j hj => ?_, fun j hj => ?_⟩, fun j hj => (nomatch hj)⟩
      · exact absurd rfl (asleep_wakeup hj).2
      · exact hat.2 j (asleep_wakeup hj).1
  | @writeFail n b rest hcall hfull hend =>
      rw [hcall] at hheld
      have hat := hheld trivial
      refine ⟨hstream, fun _ => ⟨fun j hj => ?_, hat.2⟩, fun j hj => (nomatch hj)⟩
      -- more bytes are left than there is room for
      have hcount := (Ring.full_iff pipesize_lt).mp hfull
      have hmore : PIPESIZE < s.ring.count + (b :: rest).length := by
        rw [hcount, List.length_cons]
        omega
      obtain ⟨hkilled, hopen⟩ := (hat.1 j hj).2 hmore
      rcases hend with hclosed | hk
      · rw [hopen] at hclosed
        cases hclosed
      · rw [hkilled] at hk
        cases hk
  | @writeSleep n b rest hcall hfull hopen =>
      rw [hcall] at hheld
      have hat := hheld trivial
      refine ⟨hstream, fun _ => ⟨fun j hj => ?_, fun j hj => ?_⟩, fun j hj => (nomatch hj)⟩
      · rcases asleep_update (s := s.wakeup .nread) hj with heq | hold
        · cases heq
        · exact absurd rfl (asleep_wakeup hold).2
      · exact ⟨hfull, hopen⟩
  | @store n b rest hcall hroom =>
      have hlock := h.stream.locked i (by rw [hcall]; trivial)
      rw [hcall] at hheld
      have hat := hheld trivial
      have hlt : s.ring.count < PIPESIZE :=
        lt_of_le_of_ne h.stream.count fun heq => hroom ((Ring.full_iff pipesize_lt).mpr heq)
      have hpush : (s.ring.push b).count = s.ring.count + 1 :=
        Ring.count_push (lt_of_le_of_lt hlt pipesize_lt)
      refine ⟨hstream, fun hnone => (nomatch (hlock.symm.trans hnone)),
        fun j hj => ?_⟩
      obtain rfl : i = j := Option.some.inj (hlock.symm.trans hj)
      show WaitingAt _ i (update s.call i _ i)
      rw [update_self]
      refine ⟨fun j hj => ⟨(hat.1 j hj).1, fun hmore => (hat.1 j hj).2 ?_⟩, fun j hj => ?_⟩
      · have hmore' : PIPESIZE < (s.ring.push b).count + rest.length := hmore
        rw [List.length_cons]
        omega
      · exact absurd (hat.2 j hj).1 hroom
  | @acquireRead n hcall hlock hawake =>
      have hw := h.free hlock
      refine ⟨hstream, fun hnone => (nomatch hnone), fun j hj => ?_⟩
      obtain rfl : i = j := Option.some.inj hj
      show WaitingAt _ i (update s.call i _ i)
      rw [update_self]
      exact hw
  | @readFail n hcall =>
      rw [hcall] at hheld
      exact ⟨hstream, fun _ => hheld trivial, fun j hj => (nomatch hj)⟩
  | @readSleep n hcall hempty hopen =>
      rw [hcall] at hheld
      have hat : Waiting s := hheld trivial
      refine ⟨hstream, fun _ => ⟨fun j _ => ⟨hempty, hopen⟩, fun j hj => ?_⟩, fun j hj => (nomatch hj)⟩
      rcases asleep_update hj with heq | hold
      · cases heq
      · exact hat.2 j hold
  | @readStart n hcall hdata =>
      have hlock := h.stream.locked i (by rw [hcall]; trivial)
      rw [hcall] at hheld
      have hat : Waiting s := hheld trivial
      refine ⟨hstream, fun hnone => (nomatch (hlock.symm.trans hnone)),
        fun j hj => ?_⟩
      obtain rfl : i = j := Option.some.inj (hlock.symm.trans hj)
      show WaitingAt _ i (update s.call i _ i)
      rw [update_self]
      refine ⟨fun j hj => ?_, fun j hj => (hat.2 j hj).2⟩
      obtain ⟨hempty, hopen⟩ := hat.1 j hj
      rw [hdata hempty] at hopen
      cases hopen
  | @take n k hcall hdata =>
      have hlock := h.stream.locked i (by rw [hcall]; trivial)
      rw [hcall] at hheld
      have hat := hheld trivial
      refine ⟨hstream, fun hnone => (nomatch (hlock.symm.trans hnone)),
        fun j hj => ?_⟩
      obtain rfl : i = j := Option.some.inj (hlock.symm.trans hj)
      show WaitingAt _ i (update s.call i _ i)
      rw [update_self]
      exact hat
  | @readDone n k hcall =>
      rw [hcall] at hheld
      have hat := hheld trivial
      refine ⟨hstream, fun _ => ⟨fun j hj => ?_, fun j hj => ?_⟩, fun j hj => (nomatch hj)⟩
      · exact absurd (asleep_wakeup hj).1 (hat.1 j)
      · exact absurd rfl (asleep_wakeup hj).2

/-- **Every step that meets the condition keeps the invariant.** -/
theorem WakeInv.step {s t : PipeState} {e : PipeEvent} (h : WakeInv s)
    (hstep : PipeState.Steps s e t) (hready : WriteReady s e) : WakeInv t := by
  have hstream := h.stream.step hstep
  cases hstep with
  | act ha => exact h.act ha hready
  | write hlock _ =>
      exact ⟨hstream, fun _ => h.free hlock, fun j hj => (nomatch (hlock.symm.trans hj))⟩
  | read hlock _ =>
      exact ⟨hstream, fun _ => h.free hlock, fun j hj => (nomatch (hlock.symm.trans hj))⟩
  | @close w hlock =>
      have hw := h.free hlock
      cases w with
      | true =>
          refine ⟨hstream, fun _ => ⟨fun j hj => ?_, fun j hj => ?_⟩,
            fun j hj => (nomatch (hlock.symm.trans hj))⟩
          · exact absurd rfl (asleep_wakeup (s := { s with writeopen := false }) hj).2
          · exact hw.2 j (asleep_wakeup (s := { s with writeopen := false }) hj).1
      | false =>
          refine ⟨hstream, fun _ => ⟨fun j hj => ?_, fun j hj => ?_⟩,
            fun j hj => (nomatch (hlock.symm.trans hj))⟩
          · exact hw.1 j (asleep_wakeup (s := { s with readopen := false }) hj).1
          · exact absurd rfl (asleep_wakeup (s := { s with readopen := false }) hj).2
  | kill hlock =>
      have hw := h.free hlock
      exact ⟨hstream, fun _ => ⟨fun j hj => hw.1 j (asleep_update_none hj),
        fun j hj => hw.2 j (asleep_update_none hj)⟩, fun j hj => (nomatch (hlock.symm.trans hj))⟩
  | exit hlock =>
      exact ⟨hstream, fun _ => h.free hlock, fun j hj => (nomatch (hlock.symm.trans hj))⟩

/-- **No wakeup is lost in a run in which no killed process takes the lock in `pipewrite` with more
bytes left than there is room for, while a reader sleeps.** -/
theorem no_lost_wakeup {data : Nat → UInt8} {killed : Nat → Bool}
    {tr : List (PipeState × PipeEvent)} {s : PipeState} (hrun : PipeRun data killed tr s)
    (hready : ∀ p ∈ tr, WriteReady p.1 p.2) : ∀ x ∈ visited tr s, NoLostWakeup x := by
  intro x hx
  refine WakeInv.free (@Exec.forall_visited_of_ok _ _ _ WakeInv WriteReady ?_ _ _ _ hrun
    (wakeInv_new data killed) hready x hx)
  intro t e u ht hok hstep
  exact ht.step (PipeState.steps_of_step hstep) hok

/-- Process 0 sleeps in `piperead` until process 1 writes a byte. -/
def reader : List PipeEvent :=
  [.read 0 1, .act 0, .act 0, .write 1 1 [7], .act 1, .act 1, .act 1]

/-- A process that takes the lock in `pipewrite` finds room for all its bytes. -/
def writeFits (s : PipeState) : PipeEvent → Bool
  | .act i =>
      match s.call i with
      | .writeWait _ rest => s.ring.count + rest.length ≤ PIPESIZE
      | _ => true
  | _ => true

theorem WriteReady.of_fits {e : PipeEvent} (h : writeFits s e = true) : WriteReady s e := by
  cases e with
  | act i =>
      cases hcall : s.call i with
      | writeWait n rest =>
          simp only [writeFits, hcall, decide_eq_true_eq] at h
          simp only [WriteReady, hcall]
          exact fun _ hmore => absurd hmore (by omega)
      | _ => simp only [WriteReady, hcall]
  | _ => trivial

/-- A run in which a reader is woken up. -/
theorem no_lost_wakeup_reader :
    ∃ tr s, PipeRun (fun _ => 0) (fun _ => false) tr s ∧ ∀ x ∈ visited tr s, NoLostWakeup x := by
  obtain ⟨s, hs⟩ : ∃ s, runAll PipeState.step (PipeState.new (fun _ => 0) fun _ => false) reader =
      some s := Option.isSome_iff_exists.mp (by decide +kernel)
  have hfits : (traceAll PipeState.step (PipeState.new (fun _ => 0) fun _ => false) reader).all
      (fun p => writeFits p.1 p.2) = true := by decide +kernel
  have hrun := exec_of_runAll PipeState.step hs
  exact ⟨_, s, hrun, no_lost_wakeup hrun fun p hp => .of_fits (List.all_eq_true.mp hfits p hp)⟩

/-! ## A reader that is not woken up -/

/-- Process 0 sleeps in `piperead`. Process 1 has been killed; its `pipewrite` of 513 bytes fills the
ring and returns. -/
def killedWriter : List PipeEvent :=
  [.read 0 1, .act 0, .act 0, .kill 1, .write 1 513 (List.replicate 513 7), .act 1] ++
    List.replicate 512 (.act 1) ++ [.act 1]

/-- The state after `killedWriter`. -/
def afterKilledWriter : Option PipeState :=
  runAll PipeState.step (PipeState.new (fun _ => 0) fun _ => false) killedWriter

/-- **A reader sleeps while the ring is full**: its writer was killed. -/
theorem reader_not_woken :
    ∃ tr s, PipeRun (fun _ => 0) (fun _ => false) tr s ∧ s.lock = none ∧
      s.asleep 0 = some .nread ∧ s.ring.Full ∧ ¬ NoLostWakeup s := by
  obtain ⟨s, hs⟩ : ∃ s, afterKilledWriter = some s := Option.isSome_iff_exists.mp (by decide +kernel)
  have hend : afterKilledWriter.map (fun s => (s.lock, s.asleep 0, s.ring.nread, s.ring.nwrite)) =
      some (none, some .nread, 0#32, 512#32) := by decide +kernel
  rw [hs, Option.map_some] at hend
  simp only [Option.some.injEq, Prod.mk.injEq] at hend
  obtain ⟨hlock, hsleep, hread, hwrite⟩ := hend
  have hfull : s.ring.Full := by
    unfold Ring.Full
    rw [hread, hwrite]
    rfl
  refine ⟨_, s, exec_of_runAll PipeState.step hs, hlock, hsleep, hfull, fun h => ?_⟩
  have hempty : s.ring.nread = s.ring.nwrite := ((h hlock).1 0 hsleep).1
  rw [hread, hwrite] at hempty
  exact absurd hempty (by decide)

end Xv6.Pipe

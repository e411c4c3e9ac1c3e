import Xv6.Mem.Boot

/-! # Exclusive ownership of pages

In a run in which every `exec` has arguments that fit on its stack page, every page is free or has
one user, and `kfree` never panics. `exec` does not check the length of its arguments: longer ones
run over the page below the stack, whoever uses it. -/

namespace Xv6.Mem

open Lib Run Vm

section

variable {e : KernelEnd} {s t : Sys} {n m : Nat}

/-! ## More rounds -/

theorem le_fork (h : n ≤ m) (p : Pid) : Le .loop (fork n p) (fork m p) := by
  refine (Le.refl _).bind fun np => ?_
  cases np with
  | none => exact Le.refl _
  | some np => exact (Le.refl _).bind fun _ => (Le.zoom (le_copyuvm h)).bind fun _ => Le.refl _

theorem le_wait (h : n ≤ m) (p : Pid) : Le .loop (wait n p) (wait m p) := by
  refine (Le.refl _).bind fun s => ?_
  cases (List.finRange NPROC).find? fun q =>
      (s.proc q).parent = some p ∧ (s.proc q).state = .ZOMBIE with
  | none => exact Le.refl _
  | some q => exact (Le.refl _).bind fun _ => (Le.zoom (le_freevm h)).bind fun _ => Le.refl _

/-- A call does the same with more rounds. -/
theorem le_run (h : n ≤ m) (p : Pid) (c : Call) : Le .loop (c.run n p) (c.run m p) := by
  cases c with
  | fork => exact le_fork h p
  | exec file path argv => exact (Le.zoom (le_execImage h)).bind fun _ => Le.refl _
  | sbrk k => exact (Le.refl _).bind fun _ => (Le.zoom (le_growproc h)).bind fun _ => Le.refl _
  | wait => exact le_wait h p
  | _ => exact Le.refl _

/-! ## Runs -/

/-- The arguments of an `exec` fit on its stack page. -/
def Call.Fits : Call → Prop
  | .exec _ _ argv => ArgsFit argv
  | _ => True

/-- **A call keeps the invariant**, for any number of rounds. -/
theorem Inv.run (h : Inv e False s) {p : Pid} (hp : s.Live p) {c : Call} (hc : c.Fits) (fuel : Nat) :
    Post (c.run fuel p) NoKfree (fun _ t => Inv e False t) s := by
  have hfuel : 524288 < max fuel 524289 := by omega
  refine (le_run (le_max_left fuel 524289) p c).post nofun ?_
  cases c with
  | fork =>
      exact h.fork hp.1 hfuel (by simp [NoKfree]) fun _ => ⟨by simp [NoKfree], by simp [NoKfree]⟩
  | exec file path argv => exact h.execFile hp.1 file path hc hfuel
  | sbrk k => exact h.sysSbrk hp.1 k hfuel
  | pipe => exact h.sysPipe p
  | close fd => exact h.sysClose p fd
  | exit =>
      rw [Call.run, post_bind]
      exact (h.exit hp.1).mono (fun _ hx => hx) fun _ t ht => post_pure.mpr ht
  | wait => exact h.wait p hfuel

theorem Inv.step (h : Inv e False s) {x : Pid × Call} (hx : x.2.Fits) (hstep : Step s x t) : Inv e False t := by
  obtain ⟨hlive, fuel, r, hrun⟩ := hstep
  exact (h.run hlive hx fuel).of_eq_ok hrun

theorem Inv.not_panics (h : Inv e False s) {x : Pid × Call} (hx : x.2.Fits) : ¬ Panics s x "kfree" := by
  rintro ⟨hlive, fuel, hrun⟩
  exact (h.run hlive hx fuel).of_eq_error hrun rfl

theorem MemRun.inv {tr : List (Sys × Pid × Call)} (hrun : MemRun e tr s)
    (hfit : ∀ x ∈ tr, x.2.2.Fits) : ∀ x ∈ visited tr s, Inv e False x := by
  obtain ⟨s₀, hboot, hexec⟩ := hrun
  refine @Exec.forall_visited_of_ok _ _ _ (Inv e False) (fun _ x => x.2.Fits) ?_ _ _ _ hexec (hboot.inv nofun) hfit
  exact fun t x u ht hx hstep => ht.step hx hstep

/-- **Every page has one owner**, and `kfree` does not panic, in a run in which the arguments of
every `exec` fit on its stack page. -/
theorem pages_exclusive {tr : List (Sys × Pid × Call)} (hrun : MemRun e tr s)
    (hfit : ∀ x ∈ tr, x.2.2.Fits) :
    ∀ x ∈ visited tr s, Exclusive e x ∧ ∀ p c, c.Fits → ¬ Panics x (p, c) "kfree" := by
  intro x hx
  have hinv := hrun.inv hfit x hx
  refine ⟨?_, fun p c hc => hinv.not_panics hc⟩
  obtain ⟨own, fl, role, hinv⟩ := hinv
  exact hinv.exclusive

end

/-! ## Runs on the machine -/

instance (s : Sys) (p : Pid) : Decidable (s.Live p) :=
  inferInstanceAs (Decidable (_ ∧ _))

/-- Make calls one after the other. -/
def runCalls (fuel : Nat) : List (Pid × Call) → MemM Unit
  | [] => pure ()
  | x :: xs => do
      let s ← get
      if s.Live x.1 then do
        let _ ← x.2.run fuel x.1
        runCalls fuel xs
      else stop .loop

/-- Calls that are made one after the other are an execution. -/
theorem post_runCalls (fuel : Nat) (xs : List (Pid × Call)) (s : Sys) :
    Post (runCalls fuel xs) (fun _ => True)
      (fun _ t => ∃ tr, Lib.Exec Step s tr t ∧ tr.map Prod.snd = xs) s := by
  induction xs generalizing s with
  | nil => exact post_pure.mpr ⟨[], .nil s, rfl⟩
  | cons x xs ih =>
      rw [runCalls, post_bind, post_get]
      split
      · rename_i hlive
        rw [post_bind]
        refine .of_forall (fun r u hrun => ?_) fun _ _ => trivial
        refine (ih u).mono (fun _ h => h) fun _ t ht => ?_
        obtain ⟨tr, hexec, rfl⟩ := ht
        exact ⟨(s, x) :: tr, .cons ⟨hlive, fuel, r, hrun⟩ hexec, rfl⟩
      · exact post_stop.mpr trivial

/-- The boot code and calls that are made one after the other are a run. -/
theorem memRun_of_ok {fuel : Nat} {e : KernelEnd} {mem : Nat → UInt8} {init : List UInt8}
    {xs : List (Pid × Call)} {t : Sys}
    (h : (boot fuel e init >>= fun _ => runCalls fuel xs) (Sys.zero mem) = .ok ((), t)) :
    ∃ tr, MemRun e tr t ∧ tr.map Prod.snd = xs := by
  have hpost : Post (boot fuel e init >>= fun _ => runCalls fuel xs) (fun _ => True)
      (fun _ t => ∃ tr, MemRun e tr t ∧ tr.map Prod.snd = xs) (Sys.zero mem) := by
    rw [post_bind]
    refine .of_forall (fun _ s hboot => ?_) fun _ _ => trivial
    refine (post_runCalls fuel xs s).mono (fun _ h => h) fun _ t ht => ?_
    obtain ⟨tr, hexec, hmap⟩ := ht
    exact ⟨tr, ⟨s, ⟨fuel, mem, init, hboot⟩, hexec⟩, hmap⟩
  exact hpost.of_eq_ok h

/-- A kernel of one megabyte. -/
def megabyte : KernelEnd := ⟨0x8c900000, by decide, by decide⟩

/-- The boot code of this kernel, on a memory of zeros, and calls. -/
def machine (xs : List (Pid × Call)) : MemM Unit :=
  boot 2000 megabyte [] >>= fun _ => runCalls 2000 xs

/-- The entry of the first child of `initproc`. -/
def child : Pid := ⟨1, one_lt_NPROC⟩

/-- `initproc` grows and shrinks, makes a pipe and a child; the child closes an end of the pipe. -/
def mixed : List (Pid × Call) :=
  [(initproc, .sbrk 8192), (initproc, .sbrk (-4096)), (initproc, .pipe), (initproc, .fork),
    (child, .close ⟨0, by decide⟩), (child, .exit)]

/-- A run with several kinds of calls. -/
theorem pages_exclusive_mixed :
    ∃ tr s, MemRun megabyte tr s ∧ tr.map Prod.snd = mixed ∧
      ∀ x ∈ visited tr s, Exclusive megabyte x ∧ ∀ p c, c.Fits → ¬ Panics x (p, c) "kfree" := by
  have hok : (machine mixed (Sys.zero fun _ => 0)).isOk = true := by decide +kernel
  cases hrun : machine mixed (Sys.zero fun _ => 0) with
  | error x =>
      rw [hrun] at hok
      cases hok
  | ok p =>
      obtain ⟨tr, hmem, hmap⟩ := memRun_of_ok hrun
      refine ⟨tr, p.2, hmem, hmap, pages_exclusive hmem fun x hx => ?_⟩
      have hmem' := List.mem_map_of_mem (f := Prod.snd) hx
      rw [hmap] at hmem'
      simp only [mixed, List.mem_cons, List.not_mem_nil, or_false] at hmem'
      rcases hmem' with he | he | he | he | he | he <;> rw [he] <;> trivial

/-! ## Arguments that do not fit -/

/-- `initproc` arranges the free list so that the page above the page table of its child is the
second free page. -/
def arrange : List (Pid × Call) :=
  [(initproc, .sbrk 20480), (initproc, .sbrk (-16384)), (initproc, .fork), (initproc, .sbrk 4096),
    (initproc, .sbrk (-8192))]

/-- An executable without segments. -/
def bareElf : List UInt8 := [0x7f, 0x45, 0x4c, 0x46] ++ List.replicate 48 0

/-- Five arguments of 2000 bytes each. -/
def longArgs : List (List UInt8) := List.replicate 5 (List.replicate 2000 0xc1)

/-- The `exec` of the child. -/
def overrun : Call := .exec (some bareElf) [] longArgs

/-- The call, if the process can make it. -/
def attempt (p : Pid) (c : Call) : MemM Bool := do
  let s ← get
  if s.Live p then c.run 2000 p else pure true

/-- The run has ended in a panic of `kfree`. -/
def endsInKfree {α : Type} : Except Stop α → Bool
  | .error (.panic msg) => msg == "kfree"
  | _ => false

/-- **Arguments that do not fit on the stack page** lead to a panic of `kfree`: the child's `exec`
overwrites the page table that it frees at its end. -/
theorem exec_panics_kfree :
    ∃ (e : KernelEnd) (tr : List (Sys × Pid × Call)) (s : Sys) (p : Pid) (c : Call),
      MemRun e tr s ∧ (∀ x ∈ tr, x.2.2.Fits) ∧ Panics s (p, c) "kfree" := by
  have hok : (machine arrange (Sys.zero fun _ => 0)).isOk = true := by decide +kernel
  have hend : endsInKfree ((machine arrange >>= fun _ => attempt child overrun)
      (Sys.zero fun _ => 0)) = true := by decide +kernel
  cases hrun : machine arrange (Sys.zero fun _ => 0) with
  | error x =>
      rw [hrun] at hok
      cases hok
  | ok p =>
      obtain ⟨tr, hmem, hmap⟩ := memRun_of_ok hrun
      refine ⟨megabyte, tr, p.2, child, overrun, hmem, fun x hx => ?_, ?_⟩
      · have hmem' := List.mem_map_of_mem (f := Prod.snd) hx
        rw [hmap] at hmem'
        simp only [arrange, List.mem_cons, List.not_mem_nil, or_false] at hmem'
        rcases hmem' with he | he | he | he | he <;> rw [he] <;> trivial
      · rw [bind_of_ok hrun] at hend
        have hattempt : attempt child overrun p.2 =
            if p.2.Live child then overrun.run 2000 child p.2 else .ok (true, p.2) := by
          by_cases hlive : p.2.Live child
          · rw [if_pos hlive]
            exact congrFun (if_pos hlive) p.2
          · rw [if_neg hlive]
            exact congrFun (if_neg hlive) p.2
        rw [hattempt] at hend
        by_cases hlive : p.2.Live child
        · rw [if_pos hlive] at hend
          refine ⟨hlive, 2000, ?_⟩
          cases hc : overrun.run 2000 child p.2 with
          | ok r =>
              rw [hc] at hend
              cases hend
          | error x =>
              rw [hc] at hend
              cases x with
              | loop => cases hend
              | panic msg => rw [eq_of_beq hend]
        · rw [if_neg hlive] at hend
          cases hend

end Xv6.Mem

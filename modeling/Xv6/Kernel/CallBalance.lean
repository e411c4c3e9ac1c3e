import Mathlib.Data.Set.Image
import Xv6.Kernel.Balance

/-! # System calls and the timer interrupt give their locks back

The bounds on what the functions of the file layers hold, carried over to whole system calls and to
the handler of the timer interrupt. -/

namespace Xv6

open Lib Fs Effects

/-! ## What the programs of the kernel hold

The bound for a program on the stack of a process contains `none` as long as the programs below it
may hold something. -/

/-- The busy flags an action of the kernel sets. -/
def KAct.sets : (a : KAct) → a.Resp → Set (Option BusyFlag)
  | .fs a, b => some '' a.sets b
  | _, _ => ∅

/-- The busy flags an action of the kernel clears. A killed process that is about to exit is taken
to hold nothing. -/
def KAct.clears : (a : KAct) → a.Resp → Set (Option BusyFlag)
  | .fs a, b => some '' a.clears b
  | .timerKilled, true => Set.univ
  | _, _ => ∅

/-- A process that becomes a zombie must hold nothing. -/
def KAct.bars : KAct → Set (Option BusyFlag)
  | .exitZombie => Set.univ
  | _ => ∅

/-- The actions of the kernel as acquiring and giving up busy flags. -/
def kernelEffects : Effects KAct KAct.Resp (Option BusyFlag) :=
  ⟨KAct.sets, KAct.clears, KAct.bars⟩

variable {α β : Type} {F : Set (Option BusyFlag)}

/-- The program ends with no more locks than it started with. -/
abbrev KBalanced (p : KProg α) : Prop := kernelEffects.Neutral p

theorem kbalanced_doKAct {a : KAct} (hbars : a.bars = ∅) (hsets : ∀ b, a.sets b = ∅) :
    KBalanced (doKAct a) :=
  .perform hbars hsets

variable {p : FsProg α}

/-- A program of the file layers, with other things held. -/
theorem keeps_liftFs {B : α → Set BusyFlag} {h : Set BusyFlag} {g : Set (Option BusyFlag)}
    (hsub : g ⊆ some '' h ∪ F) (hk : lockEffects.Keeps p h B) :
    kernelEffects.Keeps (liftFs p) g fun x => some '' B x ∪ F := by
  induction p generalizing h g with
  | ret x => exact hsub.trans (Set.union_subset_union_left _ (Set.image_mono hk))
  | act a k ih =>
      refine ⟨Set.disjoint_empty _, fun b => ih b ?_ (hk.2 b)⟩
      show (g \ some '' a.clears b) ∪ some '' a.sets b ⊆
        some '' ((h \ a.clears b) ∪ a.sets b) ∪ F
      rintro l (⟨hl, hnot⟩ | ⟨m, hm, rfl⟩)
      · rcases hsub hl with ⟨m, hm, rfl⟩ | hF
        · exact .inl ⟨m, .inl ⟨hm, fun hc => hnot ⟨m, hc, rfl⟩⟩, rfl⟩
        · exact .inr hF
      · exact .inl ⟨m, .inr hm, rfl⟩
  | panic msg => exact trivial

theorem holds_liftFs {A : Set BusyFlag} {B : α → Set BusyFlag} (h : lockEffects.Holds A p B) :
    kernelEffects.Holds (some '' A ∪ F) (liftFs p) fun x => some '' B x ∪ F :=
  fun _ hsub => keeps_liftFs hsub (h A subset_rfl)

theorem kbalanced_liftFs (h : Balanced p) : KBalanced (liftFs p) := by
  intro F
  have := holds_liftFs (F := F) (h ∅)
  simpa only [Set.image_empty, Set.empty_union] using this

/-! ## `exec`, `fork`, `exit` and the timer -/

theorem holds_liftFs_ilock (ip : Slot) :
    kernelEffects.Holds F (liftFs (ilock ip)) fun _ => insert (some (.inode ip)) F := by
  have := holds_liftFs (F := F) (holds_ilock (F := ∅) ip)
  simpa only [Set.image_empty, Set.empty_union, Set.image_insert_eq, Set.insert_union] using this

theorem holds_liftFs_iunlockput (ip : Slot) :
    kernelEffects.Holds (insert (some (.inode ip)) F) (liftFs (iunlockput ip)) fun _ => F := by
  have := holds_liftFs (F := F) (holds_iunlockput (F := ∅) ip)
  simpa only [Set.image_empty, Set.empty_union, Set.image_insert_eq, Set.insert_union] using this

theorem holds_liftFs_readi (ip : Slot) (off n : Nat) :
    kernelEffects.Holds (insert (some (.inode ip)) F) (liftFs (readi ip .kernel off n))
      fun _ => insert (some (.inode ip)) F := by
  have := holds_liftFs (F := F) (holds_readi (F := ∅) ip .kernel off n)
  simpa only [Set.image_empty, Set.empty_union, Set.image_insert_eq, Set.insert_union] using this

theorem holds_doKAct {a : KAct} (hbars : a.bars = ∅) (hsets : ∀ b, a.sets b = ∅) :
    kernelEffects.Holds F (doKAct a) fun _ => F :=
  kbalanced_doKAct hbars hsets F

theorem holds_loaduvm (pgdir addr : Nat) (ip : Slot) (offset sz : Nat) :
    kernelEffects.Holds (insert (some (.inode ip)) F) (loaduvm execOps pgdir addr ip offset sz)
      fun _ => insert (some (.inode ip)) F := by
  have hloop : ∀ n i, kernelEffects.Holds (insert (some (.inode ip)) F)
      (loaduvmLoop execOps pgdir addr ip offset sz n i) fun _ => insert (some (.inode ip)) F := by
    intro n
    induction n with
    | zero => exact fun _ => .ret subset_rfl
    | succ n ih =>
        refine fun i => .ite ((holds_doKAct rfl fun _ => rfl).bind fun pte => ?_) (.ret subset_rfl)
        cases pte with
        | none => exact .panic
        | some pte =>
            exact (holds_liftFs_readi _ _ _).bind fun x => (holds_doKAct rfl fun _ => rfl).bind
              fun _ => .ite (.ret subset_rfl) (ih _)
  exact .ite .panic (hloop _ _)

theorem holds_execLoad (pgdir : Nat) (ip : Slot) (n off sz : Nat) :
    kernelEffects.Holds (insert (some (.inode ip)) F) (execLoad execOps pgdir ip n off sz)
      fun _ => insert (some (.inode ip)) F := by
  induction n generalizing off sz with
  | zero => exact .ret subset_rfl
  | succ n ih =>
      exact (holds_liftFs_readi _ _ _).bind fun x => .ite (.ret subset_rfl) (.ite (ih _ _)
        (.ite (.ret subset_rfl) ((holds_doKAct rfl fun _ => rfl).bind fun sz =>
          .ite (.ret subset_rfl) ((holds_loaduvm _ _ _ _ _).bind fun ok =>
            .ite (ih _ _) (.ret subset_rfl)))))

/-- The failure path of `exec` drops the inode, whether it is held or not. -/
theorem holds_execBad (pgdir : Option Nat) (ip : Slot) :
    kernelEffects.Holds (insert (some (.inode ip)) F) (execBad execOps pgdir ip) fun _ => F := by
  refine .bind ?_ fun _ => (holds_liftFs_iunlockput ip).bind fun _ => .ret subset_rfl
  cases pgdir with
  | none => exact .ret subset_rfl
  | some pgdir => exact holds_doKAct rfl fun _ => rfl

theorem kbalanced_pushArgs (mem spbottom argp : Nat) (argv : List (List UInt8)) (sp : Nat) :
    KBalanced (pushArgs execOps mem spbottom argp argv sp) := by
  induction argv generalizing sp with
  | nil => exact .ret
  | cons a rest ih =>
      exact (kbalanced_doKAct rfl fun _ => rfl).bind fun _ =>
        (kbalanced_doKAct rfl fun _ => rfl).bind fun _ => ih _

theorem holds_execStack (pgdir : Nat) (ip : Slot) (sz : Nat) (path : List UInt8)
    (argv : List (List UInt8)) (entry : Nat) :
    kernelEffects.Holds F (execStack execOps pgdir ip sz path argv entry) fun _ => F :=
  (holds_doKAct rfl fun _ => rfl).bind fun _ => .ite
    ((holds_execBad _ _).conseq (Set.subset_insert _ _) fun _ => subset_rfl)
    ((holds_doKAct rfl fun _ => rfl).bind fun _ => (holds_doKAct rfl fun _ => rfl).bind fun _ =>
      (kbalanced_pushArgs _ _ _ _ _ _).bind fun _ => (holds_doKAct rfl fun _ => rfl).bind fun _ =>
        (holds_doKAct rfl fun _ => rfl).bind fun _ => (holds_doKAct rfl fun _ => rfl).bind fun _ =>
          .ret subset_rfl)

theorem kbalanced_exec (path : List UInt8) (argv : List (List UInt8)) :
    KBalanced (exec execOps path argv) := by
  refine fun F => (kbalanced_liftFs (balanced_namei _) _).bind fun ip => ?_
  cases ip with
  | none => exact .ret subset_rfl
  | some ip =>
      refine (holds_liftFs_ilock ip).bind fun _ => (holds_liftFs_readi _ _ _).bind fun x =>
        .ite (holds_execBad _ _) (.ite (holds_execBad _ _) ?_)
      refine (holds_doKAct rfl fun _ => rfl).bind fun pgdir => ?_
      cases pgdir with
      | none => exact holds_execBad _ _
      | some pgdir =>
          refine (holds_execLoad _ _ _ _ _).bind fun sz => ?_
          cases sz with
          | none => exact holds_execBad _ _
          | some sz =>
              exact (holds_liftFs_iunlockput _).bind fun _ => holds_execStack _ _ _ _ _ _

theorem kbalanced_fork : KBalanced fork := by
  have hdup : ∀ fds, KBalanced (dupFiles fds) := by
    intro fds
    induction fds with
    | nil => exact .ret
    | cons fd fds ih =>
        refine (kbalanced_liftFs (balanced_doAct fun _ => rfl)).bind fun f => .bind ?_ fun _ => ih
        cases f with
        | none => exact .ret
        | some f =>
            exact (kbalanced_liftFs (balanced_doAct fun _ => rfl)).bind fun _ =>
              kbalanced_doKAct rfl fun _ => rfl
  have halloc : KBalanced allocproc :=
    (kbalanced_doKAct rfl fun _ => rfl).bind fun _ _ => .ite
      ((holds_doKAct rfl fun _ => rfl).bind fun _ => .ite (.ret subset_rfl)
        ((holds_doKAct rfl fun _ => rfl).bind fun _ => .ret subset_rfl))
      (.ret subset_rfl)
  exact halloc.bind fun _ _ => .ite
    ((holds_doKAct rfl fun _ => rfl).bind fun _ => .ite
      ((hdup _ _).bind fun _ => (kbalanced_liftFs (balanced_doAct fun _ => rfl) _).bind fun _ =>
        (kbalanced_liftFs (balanced_doAct fun _ => rfl) _).bind fun _ =>
          (holds_doKAct rfl fun _ => rfl).bind fun _ => holds_doKAct rfl fun _ => rfl)
      ((holds_doKAct rfl fun _ => rfl).bind fun _ => (holds_doKAct rfl fun _ => rfl).bind fun _ =>
        .ret subset_rfl))
    (.ret subset_rfl)

/-- `exit` may be entered by a process that holds nothing. -/
theorem holds_exit {B : Unit → Set (Option BusyFlag)} : kernelEffects.Holds ∅ exit B :=
  (holds_doKAct rfl fun _ => rfl).bind fun _ => .ite .panic
    ((kbalanced_liftFs balanced_exitFs _).bind fun _ =>
      Holds.bind (.perform_empty (B := fun _ => ∅) fun b => b.elim) fun b => b.elim)

/-- The test for a killed process. -/
theorem holds_timerKilled :
    kernelEffects.Holds F timerKilled fun killed => if killed then ∅ else F := by
  refine .perform rfl fun b => ?_
  cases b with
  | false =>
      show (F \ ∅) ∪ ∅ ⊆ F
      simp
  | true =>
      show (F \ Set.univ) ∪ ∅ ⊆ ∅
      simp

/-- What follows the test. -/
theorem holds_exitIf (killed : Bool) :
    kernelEffects.Holds (if killed then ∅ else F) (if killed then exit else pure ())
      fun _ => F := by
  cases killed with
  | false => exact .ret subset_rfl
  | true => exact holds_exit

theorem kbalanced_doTimer : KBalanced doTimer :=
  (kbalanced_doKAct rfl fun _ => rfl).bind fun _ _ => holds_timerKilled.bind fun killed =>
    (holds_exitIf killed).bind fun _ => (holds_doKAct rfl fun _ => rfl).bind fun _ =>
      .bind (.ite (holds_doKAct rfl fun _ => rfl) (.ret subset_rfl)) fun _ =>
        holds_timerKilled.bind fun killed => holds_exitIf killed

/-- **System calls give their locks back**: one that is entered with nothing held returns with
nothing held. -/
theorem holds_syscall (c : Syscall) : kernelEffects.Holds ∅ c.prog fun _ => ∅ := by
  cases c with
  | chdir path => exact (kbalanced_liftFs (balanced_sysChdir _) _).map
  | close fd => exact (kbalanced_liftFs (balanced_sysClose _) _).map
  | dup fd => exact (kbalanced_liftFs (balanced_sysDup _) _).map
  | exec path argv =>
      cases path with
      | none => exact .ret subset_rfl
      | some path =>
          cases argv with
          | none => exact .ret subset_rfl
          | some argv => exact (kbalanced_exec _ _ _).map
  | exit => exact holds_exit
  | fork => exact (kbalanced_fork _).map
  | fstat fd st => exact (kbalanced_liftFs (balanced_sysFstat _ _) _).map
  | link old new => exact (kbalanced_liftFs (balanced_sysLink _ _) _).map
  | mkdir path => exact (kbalanced_liftFs (balanced_sysMkdir _) _).map
  | mknod path major minor => exact (kbalanced_liftFs (balanced_sysMknod _ _ _) _).map
  | «open» path omode => exact (kbalanced_liftFs (balanced_sysOpen _ _) _).map
  | pipe fdp => exact (kbalanced_liftFs (balanced_sysPipe _) _).map
  | read fd p n => exact (kbalanced_liftFs (balanced_sysxfer balanced_fileread _ _ _) _).map
  | write fd p n => exact (kbalanced_liftFs (balanced_sysxfer balanced_filewrite _ _ _) _).map
  | unlink path => exact (kbalanced_liftFs (balanced_sysUnlink _) _).map
  | getpid | kill pid | sbrk n | sleep n | wait | uptime =>
      exact (holds_doKAct rfl fun _ => rfl).bind fun _ => .ret subset_rfl

end Xv6

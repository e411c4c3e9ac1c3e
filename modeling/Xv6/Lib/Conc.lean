import Xv6.Lib.Exec
import Xv6.Lib.Prog
import Mathlib.Logic.Function.Basic

/-! # Concurrent programs

Processes run programs over a shared state, one atomic action at a time and in any order. What holds
of the state is proved from the programs one by one: every process has a *resource*, what it owns or
knows of the shared state, a specification of the actions says what they need and do in terms of the
resource of the process alone, and a global invariant ties all resources to the state. If every
action keeps the invariant, then the weakest preconditions of the single programs keep it in every
interleaving. -/

namespace Xv6.Lib

variable {P A σ ρ : Type} {R : A → Type}

open Prog

/-! ## Processes that run programs -/

/-- **A system of processes**: the shared state, and the program that each process runs. -/
structure Threads (P A σ : Type) (R : A → Type) where
  st : σ
  prog : P → Option (Prog A R Unit)

/-- The events: a process begins a program, performs an action, ends its program, or disappears. -/
inductive TEvent (P : Type)
  | call (p : P)
  | act (p : P)
  | ret (p : P)
  | halt (p : P)

/-- What the processes may do. -/
structure Rules (P A σ : Type) (R : A → Type) where
  /-- The programs a process may begin. -/
  start : σ → P → Prog A R Unit → Prop
  /-- What an action of a process does. -/
  step : P → (a : A) → σ → R a → σ → Prop
  /-- The actions in which a process disappears. -/
  halt : P → A → σ → σ → Prop

namespace Threads

variable [DecidableEq P]

/-- Replace the program of a process. -/
def setProg (t : Threads P A σ R) (p : P) (o : Option (Prog A R Unit)) : Threads P A σ R :=
  { t with prog := Function.update t.prog p o }

/-- **The steps of the system.** -/
inductive Step (r : Rules P A σ R) : Threads P A σ R → TEvent P → Threads P A σ R → Prop
  | call {t : Threads P A σ R} {p : P} {x : Prog A R Unit} (hidle : t.prog p = none)
      (hstart : r.start t.st p x) : Step r t (.call p) (t.setProg p (some x))
  | act {t : Threads P A σ R} {p : P} {a : A} {k : R a → Prog A R Unit} {b : R a} {s : σ}
      (hprog : t.prog p = some (.act a k)) (hstep : r.step p a t.st b s) :
      Step r t (.act p) { t.setProg p (some (k b)) with st := s }
  | ret {t : Threads P A σ R} {p : P} (hprog : t.prog p = some (.ret ())) :
      Step r t (.ret p) (t.setProg p none)
  | halt {t : Threads P A σ R} {p : P} {a : A} {k : R a → Prog A R Unit} {s : σ}
      (hprog : t.prog p = some (.act a k)) (hhalt : r.halt p a t.st s) :
      Step r t (.halt p) { t.setProg p none with st := s }

/-- No process runs a program. -/
def Quiet (t : Threads P A σ R) : Prop := ∀ p, t.prog p = none

end Threads

/-! ## Resources -/

/-- **A proof system for the processes**: specifications of the actions over resources, and a global
invariant that every step keeps. -/
structure Logic (r : Rules P A σ R) (ρ : Type) where
  /-- What the actions of a process need and do in terms of its resource. -/
  spec : P → Spec A R ρ
  /-- The panics that are acceptable. -/
  pan : String → Prop
  /-- What holds of the resource of a process between its programs. -/
  idle : P → ρ → Prop
  /-- The processes that may run programs. -/
  awake : σ → P → Prop
  /-- The global invariant. -/
  inv : σ → (P → ρ) → Prop
  start_awake : ∀ {s p x}, r.start s p x → awake s p
  start_wp : ∀ {s p x ρ'}, r.start s p x → idle p ρ' → wp (spec p) pan x (fun _ => idle p) ρ'
  step_awake : ∀ {s p a b s' q ρs}, inv s ρs → awake s p → r.step p a s b s' → awake s q →
    awake s' q
  /-- An action keeps the invariant. It may also give something to a process that is not awake. -/
  step_inv : ∀ {s p a b s' Q ρs}, inv s ρs → awake s p → spec p a Q (ρs p) → r.step p a s b s' →
    ∃ ρs', Q b (ρs' p) ∧ inv s' ρs' ∧
      ∀ q, q ≠ p → ρs' q = ρs q ∨ (¬ awake s q ∧ (idle q (ρs q) → idle q (ρs' q)))
  halt_awake : ∀ {s p a s' q}, r.halt p a s s' → q ≠ p → awake s q → awake s' q
  halt_inv : ∀ {s p a s' Q ρs}, inv s ρs → awake s p → spec p a Q (ρs p) → r.halt p a s s' →
    ∃ ρs', idle p (ρs' p) ∧ inv s' ρs' ∧ ∀ q, q ≠ p → ρs' q = ρs q

namespace Logic

section Serves

variable {r : Rules P A σ R} (l : Logic r ρ)

/-- What holds of a process with a given resource. -/
def Serves (t : Threads P A σ R) (p : P) (x : ρ) : Prop :=
  match t.prog p with
  | none => l.idle p x
  | some prog => l.awake t.st p ∧ wp (l.spec p) l.pan prog (fun _ => l.idle p) x

/-- **The invariant of the whole system.** -/
def Inv (t : Threads P A σ R) : Prop := ∃ ρs, l.inv t.st ρs ∧ ∀ p, l.Serves t p (ρs p)

variable {l}

theorem serves_of_none {t : Threads P A σ R} {p : P} {x : ρ} (h : t.prog p = none) :
    l.Serves t p x ↔ l.idle p x := by
  unfold Serves
  rw [h]

theorem serves_of_some {t : Threads P A σ R} {p : P} {x : ρ} {prog : Prog A R Unit}
    (h : t.prog p = some prog) :
    l.Serves t p x ↔ l.awake t.st p ∧ wp (l.spec p) l.pan prog (fun _ => l.idle p) x := by
  unfold Serves
  rw [h]

/-- Another process is not concerned by a step. -/
theorem Serves.congr {t t' : Threads P A σ R} {q : P} {x : ρ} (hprog : t'.prog q = t.prog q)
    (hawake : t.prog q ≠ none → l.awake t.st q → l.awake t'.st q) (h : l.Serves t q x) :
    l.Serves t' q x := by
  cases hq : t.prog q with
  | none =>
      rw [serves_of_none hq] at h
      exact (serves_of_none (hprog.trans hq)).mpr h
  | some prog =>
      rw [serves_of_some hq] at h
      exact (serves_of_some (hprog.trans hq)).mpr ⟨hawake (by rw [hq]; simp) h.1, h.2⟩

end Serves

variable [DecidableEq P] {r : Rules P A σ R} {l : Logic r ρ}

/-- **Every step keeps the invariant.** -/
theorem Inv.step {t t' : Threads P A σ R} {e : TEvent P} (h : l.Inv t)
    (hstep : Threads.Step r t e t') : l.Inv t' := by
  obtain ⟨ρs, hinv, hserves⟩ := h
  cases hstep with
  | @call p x hidle hstart =>
      have hp := (serves_of_none hidle).mp (hserves p)
      refine ⟨ρs, hinv, fun q => ?_⟩
      by_cases hq : q = p
      · subst hq
        exact (serves_of_some (Function.update_self ..)).mpr
          ⟨l.start_awake hstart, l.start_wp hstart hp⟩
      · exact (hserves q).congr (Function.update_of_ne hq ..) fun _ h => h
  | @act p a k b s hprog hact =>
      obtain ⟨hawake, hwp⟩ := (serves_of_some hprog).mp (hserves p)
      obtain ⟨ρs', hQ, hinv', hother⟩ := l.step_inv hinv hawake hwp hact
      refine ⟨ρs', hinv', fun q => ?_⟩
      by_cases hq : q = p
      · subst hq
        exact (serves_of_some (Function.update_self ..)).mpr ⟨l.step_awake hinv hawake hact hawake, hQ⟩
      · have hprog' : Function.update t.prog p (some (k b)) q = t.prog q :=
          Function.update_of_ne hq ..
        rcases hother q hq with hsame | ⟨hasleep, hidle⟩
        · rw [hsame]
          exact (hserves q).congr hprog' fun _ => l.step_awake hinv hawake hact
        · have hnone : t.prog q = none := by
            by_contra hne
            obtain ⟨prog, hsome⟩ := Option.ne_none_iff_exists'.mp hne
            exact hasleep ((serves_of_some hsome).mp (hserves q)).1
          exact (serves_of_none (hprog'.trans hnone)).mpr
            (hidle ((serves_of_none hnone).mp (hserves q)))
  | @ret p hprog =>
      obtain ⟨-, hwp⟩ := (serves_of_some hprog).mp (hserves p)
      refine ⟨ρs, hinv, fun q => ?_⟩
      by_cases hq : q = p
      · subst hq
        exact (serves_of_none (Function.update_self ..)).mpr hwp
      · exact (hserves q).congr (Function.update_of_ne hq ..) fun _ h => h
  | @halt p a k s hprog hhalt =>
      obtain ⟨hawake, hwp⟩ := (serves_of_some hprog).mp (hserves p)
      obtain ⟨ρs', hidle, hinv', hother⟩ := l.halt_inv hinv hawake hwp hhalt
      refine ⟨ρs', hinv', fun q => ?_⟩
      by_cases hq : q = p
      · subst hq
        exact (serves_of_none (Function.update_self ..)).mpr hidle
      · rw [hother q hq]
        exact (hserves q).congr (Function.update_of_ne hq ..) fun _ => l.halt_awake hhalt hq

/-- **Invariance** over whole runs. -/
theorem Inv.exec {t t' : Threads P A σ R} {tr : List (Threads P A σ R × TEvent P)} (h : l.Inv t)
    (hrun : Exec (Threads.Step r) t tr t') : l.Inv t' :=
  hrun.invariant (fun _ _ _ ht hstep => ht.step hstep) h

end Logic

end Xv6.Lib

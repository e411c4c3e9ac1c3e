import Mathlib.Control.Basic
import Mathlib.Data.Set.Basic

/-! # Programs over atomic actions

A program is a tree of atomic actions: each action `a` is answered with a value of type `R a`, and
the program goes on with the answer, returns a value, or stops with a panic. Nothing is said here
about what an action does. A *specification* of the actions over a type `ρ` of resources is a
predicate transformer for each of them, and `wp` lifts it to whole programs; the program's meaning
on states, its interleavings and the answers an arbitrary environment may give are all instances. -/

namespace Xv6.Lib

/-- **A program** over actions `A`, of which `a` is answered by a value of type `R a`. -/
inductive Prog (A : Type) (R : A → Type) (α : Type) : Type
  /-- The program is done. -/
  | ret (x : α)
  /-- An action, and how the program goes on with its answer. -/
  | act (a : A) (k : R a → Prog A R α)
  /-- The program stops the system. -/
  | panic (msg : String)

namespace Prog

variable {A : Type} {R : A → Type} {α β : Type}

/-- Run a program and then another one on its result. -/
def bind : Prog A R α → (α → Prog A R β) → Prog A R β
  | ret x, f => f x
  | act a k, f => act a fun b => (k b).bind f
  | panic msg, _ => panic msg

instance : Monad (Prog A R) where
  pure := ret
  bind := bind

/-- The program that performs one action and returns its answer. -/
def perform (a : A) : Prog A R (R a) := act a ret

@[simp] theorem pure_eq (x : α) : (pure x : Prog A R α) = ret x := rfl

@[simp] theorem ret_bind (x : α) (f : α → Prog A R β) : ret x >>= f = f x := rfl

@[simp] theorem act_bind (a : A) (k : R a → Prog A R α) (f : α → Prog A R β) :
    act a k >>= f = act a fun b => k b >>= f := rfl

@[simp] theorem perform_bind (a : A) (f : R a → Prog A R β) : perform a >>= f = act a f := rfl

/-- Sequencing is associative. -/
theorem bind_assoc' {γ : Type} (p : Prog A R α) (f : α → Prog A R β) (g : β → Prog A R γ) :
    p >>= f >>= g = p >>= fun x => f x >>= g := by
  induction p with
  | ret x => rfl
  | act a k ih =>
      show act a _ = act a _
      exact congrArg (act a) (funext ih)
  | panic msg => rfl

instance : LawfulMonad (Prog A R) := LawfulMonad.mk' _
  (fun p => by
    induction p with
    | ret x => rfl
    | act a k ih =>
        show act a _ = act a _
        exact congrArg (act a) (funext ih)
    | panic msg => rfl)
  (fun _ _ => rfl)
  (fun p f g => bind_assoc' p f g)

/-! ## Weakest preconditions -/

section WP

variable {ρ : Type}

/-- **A specification of the actions**: what must hold of the resources before an action so that
the given property holds of its answer and the resources after it. -/
abbrev Spec (A : Type) (R : A → Type) (ρ : Type) : Type :=
  (a : A) → (R a → ρ → Prop) → ρ → Prop

variable (spec : Spec A R ρ) (pan : String → Prop)

/-- **The weakest precondition of a program** with postcondition `Q`, where `pan` says which panics
are acceptable. -/
def wp : Prog A R α → (α → ρ → Prop) → ρ → Prop
  | ret x, Q => Q x
  | act a k, Q => spec a fun b => wp (k b) Q
  | panic msg, _ => fun _ => pan msg

@[simp] theorem wp_ret (x : α) (Q : α → ρ → Prop) : wp spec pan (ret x) Q = Q x := rfl

@[simp] theorem wp_pure (x : α) (Q : α → ρ → Prop) :
    wp spec pan (pure x : Prog A R α) Q = Q x := rfl

@[simp] theorem wp_act (a : A) (k : R a → Prog A R α) (Q : α → ρ → Prop) :
    wp spec pan (act a k) Q = spec a fun b => wp spec pan (k b) Q := rfl

/-- **Sequencing.** -/
@[simp] theorem wp_bind (p : Prog A R α) (f : α → Prog A R β) (Q : β → ρ → Prop) :
    wp spec pan (p >>= f) Q = wp spec pan p fun x => wp spec pan (f x) Q := by
  induction p with
  | ret x => rfl
  | act a k ih =>
      rw [act_bind, wp_act, wp_act]
      exact congrArg (spec a) (funext ih)
  | panic msg => rfl

/-- A specification is monotone if a weaker property needs no more. -/
def Monotone : Prop :=
  ∀ a (Q Q' : R a → ρ → Prop) r, (∀ b r', Q b r' → Q' b r') → spec a Q r → spec a Q' r

variable {spec pan}

/-- **Consequence.** -/
theorem wp_mono (hspec : Monotone spec) {p : Prog A R α} {Q Q' : α → ρ → Prop} {r : ρ}
    (hQ : ∀ x r', Q x r' → Q' x r') (h : wp spec pan p Q r) : wp spec pan p Q' r := by
  induction p generalizing r with
  | ret x => exact hQ x r h
  | act a k ih => exact hspec a _ _ r (fun b r' hb => ih b hb) h
  | panic msg => exact h

end WP

/-! ## Executions against an environment -/

section Answers

variable {ρ : Type} (ans : (a : A) → ρ → R a → ρ → Prop)

/-- `Performs ans p r a`: some execution of `p` that starts with `r` and gets answers that `ans`
allows comes to perform the action `a`. -/
inductive Performs : Prog A R α → ρ → A → Prop
  /-- The action at hand. -/
  | here (a : A) (k : R a → Prog A R α) (r : ρ) : Performs (act a k) r a
  /-- An action after the one at hand. -/
  | later {a a' : A} {k : R a → Prog A R α} {r r' : ρ} {b : R a} (hans : ans a r b r')
      (hrest : Performs (k b) r' a') : Performs (act a k) r a'

/-- `Returns ans p r x r'`: some execution of `p` from `r` returns `x` and ends with `r'`. -/
inductive Returns : Prog A R α → ρ → α → ρ → Prop
  /-- The program is done. -/
  | ret (x : α) (r : ρ) : Returns (ret x) r x r
  /-- One action and the rest. -/
  | act {a : A} {k : R a → Prog A R α} {r r' r'' : ρ} {b : R a} {x : α} (hans : ans a r b r')
      (hrest : Returns (k b) r' x r'') : Returns (act a k) r x r''

/-- `Reaches ans p r q r'`: some execution of `p` from `r` comes to where the program `q` is left to
do, with `r'`. -/
inductive Reaches : Prog A R α → ρ → Prog A R α → ρ → Prop
  /-- Nothing has been done. -/
  | refl (p : Prog A R α) (r : ρ) : Reaches p r p r
  /-- One action and the rest. -/
  | act {a : A} {k : R a → Prog A R α} {q : Prog A R α} {r r' r'' : ρ} {b : R a}
      (hans : ans a r b r') (hrest : Reaches (k b) r' q r'') : Reaches (act a k) r q r''

/-- The demonic specification: the action is acceptable, and every answer is provided for. -/
def demonic (ok : A → Prop) : Spec A R ρ :=
  fun a Q r => ok a ∧ ∀ b r', ans a r b r' → Q b r'

variable {ans}

theorem monotone_demonic (ok : A → Prop) : Monotone (demonic ans ok) :=
  fun _ _ _ _ hQ h => ⟨h.1, fun b r' hans => hQ b r' (h.2 b r' hans)⟩

variable {p : Prog A R α} {f : α → Prog A R β}

/-- **Safety by weakest preconditions**: with a demonic specification they bound the actions of
every execution. -/
theorem Performs.ok_of_wp {ok : A → Prop} {Q : α → ρ → Prop} {pan : String → Prop} {r : ρ} {a : A}
    (h : wp (demonic ans ok) pan p Q r) (ha : Performs ans p r a) : ok a := by
  induction ha with
  | here a k r => exact h.1
  | later hans hrest ih => exact ih (h.2 _ _ hans)

theorem Returns.bind {r r' r'' : ρ} {x : α} {y : β} (hp : Returns ans p r x r')
    (hf : Returns ans (f x) r' y r'') :
    Returns ans (p >>= f) r y r'' := by
  induction hp with
  | ret x r => exact hf
  | act hans hrest ih => exact .act hans (ih hf)

/-- An action of the second program, after the first has returned. -/
theorem Returns.performs_bind {r r' : ρ} {x : α} {a : A} (hp : Returns ans p r x r')
    (hf : Performs ans (f x) r' a) : Performs ans (p >>= f) r a := by
  induction hp with
  | ret x r => exact hf
  | act hans hrest ih => exact .later hans (ih hf)

/-- An action of the first program. -/
theorem Performs.bind {r : ρ} {a : A} (hp : Performs ans p r a) : Performs ans (p >>= f) r a := by
  induction hp with
  | here a k r => exact .here a _ r
  | later hans hrest ih => exact .later hans ih

end Answers

end Prog

end Xv6.Lib

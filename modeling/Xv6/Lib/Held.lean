import Mathlib.Data.Set.BooleanAlgebra
import Mathlib.Data.Set.Disjoint
import Mathlib.Order.CompletePartialOrder
import Xv6.Lib.Prog

/-! # Bounds on what a program holds

Actions acquire and give up things (locks, tokens) out of a type `ι`. The triple `e.Holds A p B`
says that a program started with no more than the things in `A` ends with no more than those in `B x`,
where `x` is the value it returns, and that it never performs an action while it holds something
that the action forbids. The sets are upper bounds, so giving up what is not held is harmless. -/

namespace Xv6.Lib

open Prog

/-- What the actions acquire, give up and forbid. -/
structure Effects (A : Type) (R : A → Type) (ι : Type) where
  /-- What is held after the action with a given answer in addition. -/
  gain : (a : A) → R a → Set ι
  /-- What the action with a given answer gives up. -/
  lose : (a : A) → R a → Set ι
  /-- What must not be held at the action. -/
  bar : A → Set ι

namespace Effects

variable {A : Type} {R : A → Type} {ι : Type} (e : Effects A R ι)

/-- What is held after an action. -/
def after (a : A) (b : R a) (h : Set ι) : Set ι := (h \ e.lose a b) ∪ e.gain a b

/-- The specification of the actions by their effects. -/
def spec : Spec A R (Set ι) := fun a Q h => Disjoint h (e.bar a) ∧ ∀ b, Q b (e.after a b h)

theorem monotone_spec : Monotone e.spec :=
  fun _ _ _ _ hQ h => ⟨h.1, fun b => hQ b _ (h.2 b)⟩

theorem after_mono {a : A} (b : R a) {h h' : Set ι} (hsub : h ⊆ h') :
    e.after a b h ⊆ e.after a b h' :=
  Set.union_subset_union_left _ (Set.sdiff_subset_sdiff_left hsub)

/-- `Keeps e p h B`: the program `p`, holding `h`, is going to end with no more than `B`. -/
def Keeps {α : Type} (p : Prog A R α) (h : Set ι) (B : α → Set ι) : Prop :=
  wp e.spec (fun _ => True) p (fun x h' => h' ⊆ B x) h

/-- **The triple**: from no more than `A` the program leads to no more than `B`. -/
def Holds {α : Type} (A' : Set ι) (p : Prog A R α) (B : α → Set ι) : Prop :=
  ∀ h, h ⊆ A' → e.Keeps p h B

variable {e} {α β : Type} {A' A₁ : Set ι}

variable {B : α → Set ι} {p : Prog A R α}

theorem Holds.ret {x : α} (h : A' ⊆ B x) : e.Holds A' (Prog.ret x) B :=
  fun _ hsub => hsub.trans h

theorem Holds.panic {msg : String} : e.Holds A' (Prog.panic msg) B :=
  fun _ _ => trivial

theorem Holds.ite {c : Prop} {_ : Decidable c} {p q : Prog A R α} (hp : e.Holds A' p B)
    (hq : e.Holds A' q B) : e.Holds A' (if c then p else q) B := by
  split
  · exact hp
  · exact hq

/-- **Sequencing.** -/
theorem Holds.bind {f : α → Prog A R β} {C : β → Set ι} (hp : e.Holds A' p B)
    (hf : ∀ x, e.Holds (B x) (f x) C) : e.Holds A' (p >>= f) C := by
  intro h hsub
  unfold Keeps
  rw [wp_bind]
  exact wp_mono e.monotone_spec (fun x h' hB => hf x h' hB) (hp h hsub)

/-- **Consequence.** -/
theorem Holds.conseq {B C : α → Set ι} (hp : e.Holds A₁ p B) (hA : A' ⊆ A₁) (hB : ∀ x, B x ⊆ C x) :
    e.Holds A' p C :=
  fun h hsub => wp_mono e.monotone_spec (fun x _ h' => h'.trans (hB x)) (hp h (hsub.trans hA))

/-- A single action. -/
theorem Holds.perform {a : A} (hbar : e.bar a = ∅) {B : R a → Set ι}
    (hB : ∀ b, e.after a b A' ⊆ B b) : e.Holds A' (Prog.perform a) B :=
  fun _ hsub => ⟨hbar ▸ Set.disjoint_empty _, fun b => (e.after_mono b hsub).trans (hB b)⟩

/-- An action that is forbidden unless nothing is held. -/
theorem Holds.perform_empty {a : A} {B : R a → Set ι} (hB : ∀ b, e.after a b ∅ ⊆ B b) :
    e.Holds ∅ (Prog.perform a) B := by
  intro h hsub
  rw [Set.subset_empty_iff.mp hsub]
  exact ⟨Set.empty_disjoint _, hB⟩

/-- The result of a program may be thrown away or mapped. -/
theorem Holds.map {f : α → β} {B : Set ι} (hp : e.Holds A' p fun _ => B) :
    e.Holds A' (f <$> p) fun _ => B :=
  hp.bind fun _ => .ret subset_rfl

/-- Programs that end with no more than they started with. -/
def Neutral (e : Effects A R ι) (p : Prog A R α) : Prop := ∀ F, e.Holds F p fun _ => F

/-- An action without effects. -/
theorem Neutral.perform {a : A} (hbar : e.bar a = ∅) (hgain : ∀ b, e.gain a b = ∅) :
    e.Neutral (Prog.perform a) := by
  refine fun F => .perform hbar fun b => ?_
  rw [after, hgain b, Set.union_empty]
  exact Set.sdiff_subset

theorem Neutral.ret {x : α} : e.Neutral (Prog.ret x : Prog A R α) := fun _ => .ret subset_rfl

theorem Neutral.panic {msg : String} : e.Neutral (Prog.panic msg : Prog A R α) := fun _ => .panic

theorem Neutral.bind {f : α → Prog A R β} (hp : e.Neutral p) (hf : ∀ x, e.Neutral (f x)) :
    e.Neutral (p >>= f) :=
  fun F => (hp F).bind fun x => hf x F

end Effects

end Xv6.Lib

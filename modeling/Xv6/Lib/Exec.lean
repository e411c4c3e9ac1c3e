import Mathlib.Data.List.Basic

/-! # Finite executions of a labelled step relation

A *step relation* `step s e s'` says that the system may go from state `s` to state `s'` by the
event `e`. An execution `Exec step s tr t` leads from `s` to `t` and records in `tr`, for each step,
the state it was taken in together with its event, so that a condition on the steps of a run (a
property of an event and of the state before it) can be stated about the run itself. -/

namespace Xv6.Lib

variable {σ ε : Type*}

/-- **A finite execution** from one state to another, with the state before each step recorded next
to the step's event. -/
inductive Exec (step : σ → ε → σ → Prop) : σ → List (σ × ε) → σ → Prop
  /-- The empty execution. -/
  | nil (s : σ) : Exec step s [] s
  /-- One more step at the end. -/
  | snoc {s t u : σ} {e : ε} {tr : List (σ × ε)} (head : Exec step s tr t) (last : step t e u) :
      Exec step s (tr ++ [(t, e)]) u

/-- The states an execution with trace `tr` and final state `t` passes through. -/
def visited (tr : List (σ × ε)) (t : σ) : List σ := tr.map Prod.fst ++ [t]

@[simp] theorem mem_visited {tr : List (σ × ε)} {t x : σ} :
    x ∈ visited tr t ↔ (∃ e, (x, e) ∈ tr) ∨ x = t := by
  simp [visited]

namespace Exec

variable {step : σ → ε → σ → Prop}

/-- **Invariant rule under a step condition.** If every step of the run meets `ok`, and steps that
meet `ok` preserve `P`, then `P` holds at the end of the run. -/
theorem invariant_of_ok {P : σ → Prop} {ok : σ → ε → Prop}
    (hstep : ∀ t e u, P t → ok t e → step t e u → P u) {s u : σ} {tr : List (σ × ε)}
    (hrun : Exec step s tr u) (hs : P s) (hok : ∀ p ∈ tr, ok p.1 p.2) : P u := by
  induction hrun with
  | nil => exact hs
  | snoc head last ih =>
      have hlast : ok _ _ := hok _ (List.mem_append_right _ (List.mem_singleton_self _))
      exact hstep _ _ _ (ih fun p hp => hok p (List.mem_append_left _ hp)) hlast last

/-- **Invariant rule.** What holds at the start and is preserved by every step holds at the end of
every run. -/
theorem invariant {P : σ → Prop} (hstep : ∀ t e u, P t → step t e u → P u) {s u : σ}
    {tr : List (σ × ε)} (hrun : Exec step s tr u) (hs : P s) : P u :=
  @invariant_of_ok _ _ _ P (fun _ _ => True) (fun t e u ht _ => hstep t e u ht) _ _ _ hrun hs
    (fun _ _ => trivial)

/-- One execution after another. -/
theorem trans {s t u : σ} {tr tr' : List (σ × ε)} (hrun : Exec step s tr t)
    (hrun' : Exec step t tr' u) : Exec step s (tr ++ tr') u := by
  induction hrun' with
  | nil => rwa [List.append_nil]
  | snoc head last ih =>
      rw [← List.append_assoc]
      exact Exec.snoc ih last

/-- The run up to a recorded step, and the step itself. -/
theorem exists_upto {s u : σ} {tr : List (σ × ε)} (hrun : Exec step s tr u) {x : σ} {e : ε}
    (hx : (x, e) ∈ tr) :
    ∃ pre, Exec step s pre x ∧ pre ⊆ tr ∧ ∃ y, step x e y ∧ y ∈ visited tr u := by
  induction hrun with
  | nil => simp at hx
  | @snoc t u e' tr head last ih =>
      rcases List.mem_append.mp hx with hold | hnew
      · obtain ⟨pre, hpre, hsub, y, hy, hyv⟩ := ih hold
        refine ⟨pre, hpre, fun p hp => List.mem_append_left _ (hsub hp), y, hy, ?_⟩
        rcases mem_visited.mp hyv with ⟨e'', he''⟩ | rfl
        · exact mem_visited.mpr (.inl ⟨e'', List.mem_append_left _ he''⟩)
        · exact mem_visited.mpr (.inl ⟨e', by simp⟩)
      · obtain ⟨rfl, rfl⟩ : x = t ∧ e = e' := by simpa using hnew
        exact ⟨tr, head, fun p hp => List.mem_append_left _ hp, _, last,
          mem_visited.mpr (.inr rfl)⟩

/-- The invariant rule for all states of a run. -/
theorem forall_visited_of_ok {P : σ → Prop} {ok : σ → ε → Prop}
    (hstep : ∀ t e u, P t → ok t e → step t e u → P u) {s u : σ} {tr : List (σ × ε)}
    (hrun : Exec step s tr u) (hs : P s) (hok : ∀ p ∈ tr, ok p.1 p.2) :
    ∀ x ∈ visited tr u, P x := by
  intro x hx
  rcases mem_visited.mp hx with ⟨e, he⟩ | rfl
  · obtain ⟨pre, hpre, hsub, -⟩ := exists_upto hrun he
    exact invariant_of_ok hstep hpre hs fun p hp => hok p (hsub hp)
  · exact invariant_of_ok hstep hrun hs hok

/-- **Exactness of a step condition.** Let `P` be an invariant of the steps that meet `ok` and imply
`good`, and let every step that does not meet `ok` leave `good`. Then a run stays in `good` states
exactly when all its steps meet `ok`. -/
theorem forall_visited_iff {P good : σ → Prop} {ok : σ → ε → Prop}
    (hgood : ∀ t, P t → good t) (hstep : ∀ t e u, P t → ok t e → step t e u → P u)
    (hbad : ∀ t e u, ¬ ok t e → step t e u → ¬ good u) {s u : σ} {tr : List (σ × ε)}
    (hs : P s) (hrun : Exec step s tr u) :
    (∀ x ∈ visited tr u, good x) ↔ ∀ p ∈ tr, ok p.1 p.2 := by
  constructor
  · rintro hall ⟨x, e⟩ hx
    obtain ⟨-, -, -, y, hy, hyv⟩ := exists_upto hrun hx
    by_contra hnot
    exact hbad x e y hnot hy (hall y hyv)
  · exact fun hok x hx => hgood x (forall_visited_of_ok hstep hrun hs hok x hx)

end Exec

/-! ## What cannot be avoided -/

/-- **A step that meets `goal` is inevitable**: the system is not stuck, and whichever way it goes,
such a step comes after finitely many others. -/
inductive Inevitable (step : σ → ε → σ → Prop) (goal : σ → ε → Prop) : σ → Prop
  | mk {s : σ} (can : ∃ e t, step s e t)
      (all : ∀ e t, step s e t → ¬ goal s e → Inevitable step goal t) : Inevitable step goal s

/-! ## Executions of a partial step function -/

section Function

variable (f : σ → ε → Option σ)

/-- The step relation of a partial step function. -/
def StepOf (s : σ) (e : ε) (t : σ) : Prop := f s e = some t

/-- Run a list of events, failing when one of them is not enabled. -/
def runAll : σ → List ε → Option σ
  | s, [] => some s
  | s, e :: es => (f s e).bind fun t => runAll t es

/-- The trace of a list of events, up to the first one that is not enabled. -/
def traceAll : σ → List ε → List (σ × ε)
  | _, [] => []
  | s, e :: es => (s, e) :: (f s e).elim [] fun t => traceAll t es

/-- A step in front of an execution. -/
theorem Exec.cons {step : σ → ε → σ → Prop} {s t u : σ} {e : ε} {tr : List (σ × ε)}
    (hfirst : step s e t) (hrest : Exec step t tr u) : Exec step s ((s, e) :: tr) u := by
  induction hrest with
  | nil => exact Exec.snoc (Exec.nil s) hfirst
  | snoc head last ih => exact Exec.snoc ih last

/-- A list of events that are enabled one after the other is an execution. -/
theorem exec_of_runAll {s u : σ} {es : List ε} (h : runAll f s es = some u) :
    Exec (StepOf f) s (traceAll f s es) u := by
  induction es generalizing s with
  | nil =>
      obtain rfl : s = u := by simpa [runAll] using h
      exact Exec.nil s
  | cons e es ih =>
      rw [runAll, Option.bind_eq_some_iff] at h
      obtain ⟨t, ht, hrest⟩ := h
      rw [traceAll, ht]
      exact Exec.cons ht (ih hrest)

end Function

end Xv6.Lib

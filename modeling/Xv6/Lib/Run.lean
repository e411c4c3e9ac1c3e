import Mathlib.Init

/-! # Runs that may stop

A computation over a state that either returns a value and a new state or stops for a reason out of
a type `ε` (a panic, a loop that does not end). `Post` is its weakest precondition for a
postcondition on the returns and one on the reasons to stop; with no acceptable reason it is total
correctness. -/

namespace Xv6.Lib

/-- **A computation** over the state `σ` that may stop for a reason of type `ε`. -/
abbrev Run (ε σ : Type) : Type → Type := StateT σ (Except ε)

namespace Run

variable {ε σ α β : Type}

/-- Stop. -/
def stop (e : ε) : Run ε σ α := fun _ => .error e

/-- **The postconditions hold** of the run of `m` from `s`. -/
def Post (m : Run ε σ α) (E : ε → Prop) (Q : α → σ → Prop) (s : σ) : Prop :=
  match m s with
  | .ok (x, t) => Q x t
  | .error e => E e

variable {E : ε → Prop} {Q : α → σ → Prop} {s : σ}

variable {m : Run ε σ α}

theorem post_of_eq {x : α} {t : σ} (h : m s = .ok (x, t)) : Post m E Q s ↔ Q x t := by
  rw [Post, h]

@[simp] theorem post_pure {x : α} : Post (pure x) E Q s ↔ Q x s := .rfl

@[simp] theorem post_stop {e : ε} : Post (stop e : Run ε σ α) E Q s ↔ E e := .rfl

@[simp] theorem post_get {Q : σ → σ → Prop} : Post get E Q s ↔ Q s s := .rfl

@[simp] theorem post_modify {f : σ → σ} {Q : PUnit → σ → Prop} :
    Post (modify f) E Q s ↔ Q ⟨⟩ (f s) := .rfl

/-- **Sequencing.** -/
@[simp] theorem post_bind {f : α → Run ε σ β} {Q : β → σ → Prop} :
    Post (m >>= f) E Q s ↔ Post m E (fun x t => Post (f x) E Q t) s := by
  have hbind : (m >>= f) s = (m s >>= fun p => f p.1 p.2) := rfl
  unfold Post
  rw [hbind]
  cases m s with
  | error e => rfl
  | ok p => rfl

/-- **Consequence.** -/
theorem Post.mono {E' : ε → Prop} {Q' : α → σ → Prop} (h : Post m E Q s) (hE : ∀ e, E e → E' e)
    (hQ : ∀ x t, Q x t → Q' x t) : Post m E' Q' s := by
  unfold Post at h ⊢
  cases hm : m s with
  | error e =>
      rw [hm] at h
      exact hE e h
  | ok p =>
      rw [hm] at h
      exact hQ p.1 p.2 h

/-- With no acceptable reason to stop the run returns. -/
theorem Post.exists_ok (h : Post m (fun _ => False) Q s) : ∃ x t, m s = .ok (x, t) ∧ Q x t := by
  unfold Post at h
  cases hm : m s with
  | error e =>
      rw [hm] at h
      exact h.elim
  | ok p =>
      rw [hm] at h
      exact ⟨p.1, p.2, rfl, h⟩

theorem Post.of_eq_ok {x : α} {t : σ} (h : Post m E Q s) (hm : m s = .ok (x, t)) : Q x t :=
  (post_of_eq hm).mp h

theorem Post.of_eq_error {e : ε} (h : Post m E Q s) (hm : m s = .error e) : E e := by
  unfold Post at h
  rwa [hm] at h

/-- What holds of every end of a run. -/
theorem Post.of_forall (hok : ∀ x t, m s = .ok (x, t) → Q x t) (herr : ∀ e, m s = .error e → E e) :
    Post m E Q s := by
  unfold Post
  cases hm : m s with
  | error e => exact herr e hm
  | ok p => exact hok p.1 p.2 hm

theorem bind_of_ok {f : α → Run ε σ β} {x : α} {t : σ} (h : m s = .ok (x, t)) :
    (m >>= f) s = f x t := by
  have hbind : (m >>= f) s = (m s >>= fun p => f p.1 p.2) := rfl
  rw [hbind, h]
  rfl

/-! ## Runs on a part of the state -/

/-- The run of `m` on the part `get` of the state. -/
def zoom {τ : Type} (get : σ → τ) (set : τ → σ → σ) (m : Run ε τ α) : Run ε σ α := fun s =>
  match m (get s) with
  | .ok (x, t) => .ok (x, set t s)
  | .error e => .error e

@[simp] theorem post_zoom {τ : Type} {get : σ → τ} {set : τ → σ → σ} {m : Run ε τ α} :
    Post (zoom get set m) E Q s ↔ Post m E (fun x t => Q x (set t s)) (get s) := by
  unfold Post zoom
  cases m (get s) with
  | error e => rfl
  | ok p => rfl

/-! ## Runs with more rounds -/

section

variable {l : ε}

/-- Unless `m` stops for the reason `l`, `m'` does the same. -/
def Le (l : ε) (m m' : Run ε σ α) : Prop := ∀ s, m s ≠ .error l → m' s = m s

theorem Le.refl (m : Run ε σ α) : Le l m m := fun _ _ => rfl

variable {m m' : Run ε σ α}

theorem Le.of_eq (h : m = m') : Le l m m' := h ▸ Le.refl m

theorem Le.stop {m : Run ε σ α} : Le l (stop l) m := fun _ h => absurd rfl h

theorem Le.bind {f f' : α → Run ε σ β} (hm : Le l m m') (hf : ∀ x, Le l (f x) (f' x)) :
    Le l (m >>= f) (m' >>= f') := by
  intro s h
  have hbind : (m >>= f) s = (m s >>= fun p => f p.1 p.2) := rfl
  have hbind' : (m' >>= f') s = (m' s >>= fun p => f' p.1 p.2) := rfl
  rw [hbind] at h ⊢
  rw [hbind']
  cases hms : m s with
  | error e =>
      rw [hms] at h
      have hne : m s ≠ .error l := by
        rw [hms]
        rintro ⟨⟩
        exact h rfl
      rw [hm s hne, hms]
      rfl
  | ok p =>
      rw [hms] at h
      rw [hm s (by rw [hms]; exact nofun), hms]
      exact hf p.1 p.2 h

theorem Le.ite {c : Prop} [Decidable c] {m m' n n' : Run ε σ α} (hm : Le l m m') (hn : Le l n n') :
    Le l (if c then m else n) (if c then m' else n') := by
  split
  · exact hm
  · exact hn

theorem Le.zoom {τ : Type} {get : σ → τ} {set : τ → σ → σ} {m m' : Run ε τ α} (h : Le l m m') :
    Le l (zoom get set m) (zoom get set m') := by
  intro s hs
  unfold Run.zoom at hs ⊢
  cases hms : m (get s) with
  | error e =>
      rw [hms] at hs
      have hne : m (get s) ≠ .error l := by
        rw [hms]
        rintro ⟨⟩
        exact hs rfl
      rw [h _ hne, hms]
  | ok p => rw [h _ (by rw [hms]; exact nofun), hms]

/-- The postconditions that hold with more rounds hold with fewer, if they allow to run out of
rounds. -/
theorem Le.post (h : Le l m m') (hl : E l) (hpost : Post m' E Q s) : Post m E Q s := by
  by_cases hs : m s = .error l
  · rw [Post, hs]
    exact hl
  · rw [Post, ← h s hs]
    exact hpost

end

attribute [irreducible] Post

end Run

end Xv6.Lib

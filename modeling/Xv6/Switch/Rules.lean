import Xv6.Switch.Code

/-! # Rules for code that may be interrupted

What each context may rely on. While `BL` is set a context runs alone, up to its next `swtch`. While
`BL` is clear, handlers and through them all other contexts may run between any two of its
instructions; it then has to leave the state *open*, with `ncli` zero and no lock held, and finds it
open again. A `swtch` is a hand-over: exactly `ptable.lock` is held on both sides.

A triple `Triple c P m Q` says that the code `m` of the context `c` keeps to this when it is started
in a state with `P`, and ends in one with `Q`. -/

namespace Xv6.Switch

open Lib

/-! ## Assertions -/

/-- What an assertion may say about `proc` and the states of the processes. -/
abbrev Rest : Type := Option Pid → (Pid → ProcState) → Prop

/-- **The locks `L` are held and no others**, `ncli` is `n`, and interrupts are blocked if that is
not zero. -/
structure Cli (R : Rest) (n : Nat) (L : List Lock) (s : St) : Prop where
  lock : ∀ l, s.lock l = if l ∈ L then ⟨true, some cpuId⟩ else ⟨false, none⟩
  ncli : s.cpu.ncli = n
  blocked : n ≠ 0 → s.cpu.blocked = true
  rest : R s.proc s.state

/-- The context `c` is the one that runs: `proc` is its process, which is `RUNNING`. -/
def Here (c : Option Pid) : Rest := fun proc state =>
  proc = c ∧ ∀ p, c = some p → state p = .RUNNING

/-- The context runs and holds the locks `L`. -/
abbrev At (c : Option Pid) (L : List Lock) : St → Prop := Cli (Here c) L.length L

/-- Interrupts are enabled. -/
def Open (c : Option Pid) (s : St) : Prop := s.cpu.blocked = false ∧ At c [] s

/-- Exactly `ptable.lock` is held, and `proc` and its state are as `R` says. -/
abbrev Handed (R : Rest) : St → Prop := Cli R 1 [.ptable]

/-- What a context finds when `swtch` comes back to it. -/
def Resumed : Option Pid → St → Prop
  | none => Handed fun _ _ => True
  | some p => Handed (Here (some p))

/-- The states of a process that is, or will be, switched to. -/
def live : ProcState → Bool
  | .SLEEPING | .RUNNABLE | .RUNNING => true
  | _ => false

/-! ## The specification of the instructions -/

/-- What a context has to see to before an instruction. -/
def Guard (c : Option Pid) : Instr → St → Prop
  -- a lock is not taken twice and not released twice
  | .setLock l v, s => (s.lock l).locked = !v.locked
  | .spin l, s => (s.lock l).locked = false
  -- nobody revives a process that has no context
  | .setState p st, s => c = some p ∨ (live st = true → live (s.state p) = true)
  | .start p, _ => c ≠ some p
  | .swtch old new, s => old = c ∧ match c with
      | none => ∃ p, new = some p ∧ Handed (Here (some p)) s
      | some _ => new = none ∧ Handed (fun _ _ => True) s
  | .panic msg, s => msg = "init exiting" ∧ (s.lock .ptable).locked = false
  | _, _ => True

/-- What holds after an instruction; a process that is not `live` does not come back from
`swtch`. -/
def After (c : Option Pid) (s : St) : (a : Instr) → (a.Resp → St → Prop) → Prop
  | .swtch _ _, P => (∀ p, c = some p → live (s.state p) = true) → ∀ t, Resumed c t → P () t
  | a, P => ∀ b t, a.Does s b t → P b t

/-- **The specification of the instructions** for a context: other contexts may come in between if
interrupts are enabled. -/
def spec (c : Option Pid) : Prog.Spec Instr Instr.Resp St := fun a P s =>
  (s.cpu.blocked = true ∨ Open c s) ∧
    ∀ s', (s' = s ∨ Open c s ∧ Open c s') → Guard c a s' ∧ After c s' a P

theorem After.mono {c : Option Pid} {s : St} {a : Instr} {P P' : a.Resp → St → Prop}
    (hP : ∀ b t, P b t → P' b t) (h : After c s a P) : After c s a P' := by
  cases a with
  | swtch old new => exact fun hlive t ht => hP _ _ (h hlive t ht)
  | _ => exact fun b t hdoes => hP _ _ (h b t hdoes)

theorem monotone_spec (c : Option Pid) : Prog.Monotone (spec c) :=
  fun _ _ _ _ hQ h => ⟨h.1, fun s' hs' => ⟨(h.2 s' hs').1, (h.2 s' hs').2.mono hQ⟩⟩

/-- The weakest precondition for a context: no panic of the program type is used. -/
abbrev wpc {α : Type} (c : Option Pid) (m : Code α) (Q : α → St → Prop) : St → Prop :=
  Prog.wp (spec c) (fun _ => False) m Q

/-- **Triples.** -/
def Triple {α : Type} (c : Option Pid) (P : St → Prop) (m : Code α) (Q : α → St → Prop) : Prop :=
  ∀ s, P s → wpc c m Q s

/-- An assertion that other contexts keep if interrupts are enabled. -/
def Stable (c : Option Pid) (P : St → Prop) : Prop :=
  ∀ s, P s → s.cpu.blocked = true ∨ Open c s ∧ ∀ s', Open c s' → P s'

variable {c : Option Pid} {α β : Type} {P P' : St → Prop} {R R' : Rest} {n : Nat} {L : List Lock}
  {l : Lock} {p : Pid}

/-! ## Structural rules -/

variable {Q : α → St → Prop} {m : Code α}

theorem Triple.pure {x : α} (h : ∀ s, P s → Q x s) : Triple c P (pure x) Q := h

/-- Sequencing. -/
theorem Triple.bind {f : α → Code β} {M : α → St → Prop} {Q : β → St → Prop} (hm : Triple c P m M)
    (hf : ∀ x, Triple c (M x) (f x) Q) : Triple c P (m >>= f) Q := by
  intro s hs
  rw [wpc, Prog.wp_bind]
  exact Prog.wp_mono (monotone_spec c) (fun x t ht => hf x t ht) (hm s hs)

/-- Consequence. -/
theorem Triple.conseq {Q Q' : α → St → Prop} (hm : Triple c P m Q) (hP : ∀ s, P' s → P s)
    (hQ : ∀ x s, Q x s → Q' x s) : Triple c P' m Q' :=
  fun s hs => Prog.wp_mono (monotone_spec c) hQ (hm s (hP s hs))

theorem Triple.pre (hm : Triple c P m Q) (hP : ∀ s, P' s → P s) : Triple c P' m Q :=
  hm.conseq hP fun _ _ h => h

/-- A fact that the assertion implies can be used to prove the triple. -/
theorem Triple.of_pre {φ : Prop} (hφ : ∀ s, P s → φ) (hm : φ → Triple c P m Q) : Triple c P m Q :=
  fun s hs => hm (hφ s hs) s hs

theorem Triple.ite {b : Prop} [Decidable b] {m m' : Code α} (hm : b → Triple c P m Q)
    (hm' : ¬ b → Triple c P m' Q) :
    Triple c P (if b then m else m') Q := by
  split
  · exact hm ‹_›
  · exact hm' ‹_›

/-- **Instructions** other than `swtch`. -/
theorem triple_instr {a : Instr} {Q : a.Resp → St → Prop} (hP : Stable c P)
    (hswtch : ∀ old new, a ≠ .swtch old new) (hguard : ∀ s, P s → Guard c a s)
    (hpost : ∀ s b t, P s → a.Does s b t → Q b t) : Triple c P (instr a) Q := by
  intro s hs
  have hafter : ∀ s', P s' → After c s' a Q := by
    intro s' hs'
    cases a with
    | swtch old new => exact absurd rfl (hswtch old new)
    | _ => exact fun b t hdoes => hpost s' b t hs' hdoes
  refine ⟨(hP s hs).imp_right And.left, ?_⟩
  rintro s' (rfl | ⟨hopen, hopen'⟩)
  · exact ⟨hguard _ hs, hafter _ hs⟩
  · have hs' : P s' := by
      rcases hP s hs with hb | ⟨-, hstable⟩
      · exact absurd (hopen.1.symm.trans hb) Bool.false_ne_true
      · exact hstable s' hopen'
    exact ⟨hguard _ hs', hafter _ hs'⟩

/-- `panic`, where it cannot be reached. -/
theorem triple_panic {msg : String} (hP : ∀ s, ¬ P s) : Triple c P (panic msg : Code α) Q :=
  fun s hs => absurd hs (hP s)

/-! ## Stable assertions -/

theorem stable_cli (h : n = 0 → R = Here c ∧ L = []) : Stable c (Cli R n L) := by
  intro s hs
  by_cases hn : n = 0
  · obtain ⟨rfl, rfl⟩ := h hn
    subst hn
    cases hb : s.cpu.blocked with
    | true => exact .inl rfl
    | false => exact .inr ⟨⟨hb, hs⟩, fun s' hs' => hs'.2⟩
  · exact .inl (hs.blocked hn)

theorem stable_at (c : Option Pid) (L : List Lock) : Stable c (At c L) :=
  stable_cli fun h => ⟨rfl, List.eq_nil_of_length_eq_zero h⟩

/-- A further assertion about states in which `BL` is set. -/
theorem stable_blocked (h : ∀ s, P s → s.cpu.blocked = true) : Stable c P :=
  fun s hs => .inl (h s hs)

/-! ## Instructions that only read -/

/-- An instruction that reads the state. -/
theorem triple_read (a : Instr) (hP : Stable c P) (hswtch : ∀ old new, a ≠ .swtch old new)
    (hread : ∀ s b t, a.Does s b t → t = s) (hguard : ∀ s, Guard c a s) :
    Triple c P (instr a) fun b s => P s ∧ a.Does s b s := by
  refine triple_instr hP hswtch (fun s _ => hguard s) fun s b t hs hdoes => ?_
  obtain rfl := hread s b t hdoes
  exact ⟨hs, hdoes⟩

/-- **Instructions while `BL` is set**: the context runs alone. -/
theorem spec_of_blocked {s : St} {a : Instr} {Q : a.Resp → St → Prop}
    (hb : s.cpu.blocked = true) (hguard : Guard c a s) (hafter : After c s a Q) :
    spec c a Q s := by
  refine ⟨.inl hb, ?_⟩
  rintro s' (rfl | ⟨hopen, -⟩)
  · exact ⟨hguard, hafter⟩
  · exact absurd (hopen.1.symm.trans hb) Bool.false_ne_true

end Xv6.Switch

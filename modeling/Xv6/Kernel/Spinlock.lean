import Xv6.Kernel.System

/-! # Spin locks and the interrupt state

`acquire` and `release` of `spinlock.c` on one processor, over `pushcli` and `popcli`, and what a
well-nested sequence of them does to the bit `BL` of the status register. A lock is a structure in
memory of more than forty bytes, so that the depth of nesting stays below the range of `ncli`. -/

namespace Xv6

open Lib

/-! ## The functions -/

/-- `struct spinlock`, as far as `acquire` and `release` look at it. -/
structure Spinlock where
  locked : Bool
  /-- The processor that holds the lock. -/
  cpu : Option Nat

/-- A processor with the number `id`, and the locks `L`. -/
structure LockState (L : Type) where
  cpu : Cpu
  id : Nat
  lock : L → Spinlock

/-- The two operations on a lock. -/
inductive LockOp (L : Type)
  | acquire (l : L)
  | release (l : L)

section

variable {L : Type} [DecidableEq L]

namespace LockState

/-- `holding(lk)`. -/
def holding (s : LockState L) (l : L) : Bool := (s.lock l).locked && (s.lock l).cpu = some s.id

/-- `acquire(lk)`; `none` stands for its panic, and for the wait for another processor. -/
def acquire (s : LockState L) (l : L) : Option (LockState L) :=
  if s.holding l then none
  else if (s.lock l).locked then none
  else some { s with cpu := s.cpu.pushcli, lock := Function.update s.lock l ⟨true, some s.id⟩ }

/-- `release(lk)`; `none` stands for the panics. -/
def release (s : LockState L) (l : L) : Option (LockState L) :=
  if s.holding l = false then none
  else s.cpu.popcli.map fun c =>
    { s with cpu := c, lock := Function.update s.lock l ⟨false, none⟩ }

/-- One operation. -/
def op (s : LockState L) : LockOp L → Option (LockState L)
  | .acquire l => s.acquire l
  | .release l => s.release l

end LockState

/-! ## Well-nested sequences -/

/-- **The well-nested sequences** of operations on distinct locks, for a processor that holds the
locks `held`. -/
inductive Nested : List L → List (LockOp L) → Prop
  | nil (held : List L) : Nested held []
  /-- A section of a lock that is not held, with sections in it and after it. -/
  | sect {held : List L} {inner rest : List (LockOp L)} {l : L} (hl : l ∉ held)
      (hinner : Nested (l :: held) inner) (hrest : Nested held rest) :
      Nested held (.acquire l :: (inner ++ .release l :: rest))

/-- The number of sections that a sequence has entered and not left. -/
def depth : List (LockOp L) → Int
  | [] => 0
  | .acquire _ :: ops => 1 + depth ops
  | .release _ :: ops => -1 + depth ops

/-- The locks held after a sequence, if it takes no lock twice and releases only locks held. -/
def heldAfter : List L → List (LockOp L) → Option (List L)
  | held, [] => some held
  | held, .acquire l :: ops => if l ∈ held then none else heldAfter (l :: held) ops
  | held, .release l :: ops => if l ∈ held then heldAfter (held.erase l) ops else none

theorem heldAfter_append (held : List L) (p q : List (LockOp L)) :
    heldAfter held (p ++ q) = (heldAfter held p).bind fun h => heldAfter h q := by
  induction p generalizing held with
  | nil => rfl
  | cons o p ih =>
      cases o with
      | acquire l =>
          rw [List.cons_append, heldAfter, heldAfter]
          split
          · rfl
          · exact ih _
      | release l =>
          rw [List.cons_append, heldAfter, heldAfter]
          split
          · exact ih _
          · rfl

variable {held : List L} {s : LockState L}

/-- A well-nested sequence ends with the locks it began with. -/
theorem Nested.heldAfter_eq {ops : List (LockOp L)} (h : Nested held ops) :
    heldAfter held ops = some held := by
  induction h with
  | nil => rfl
  | @sect held inner rest l hl _ _ ihinner ihrest =>
      rw [heldAfter, if_neg hl, heldAfter_append, ihinner, Option.bind_some, heldAfter,
        if_pos (.head _), List.erase_cons_head]
      exact ihrest

theorem depth_eq {held held' : List L} {p : List (LockOp L)} (h : heldAfter held p = some held') :
    (held.length : Int) + depth p = held'.length := by
  induction p generalizing held with
  | nil =>
      obtain rfl : held = held' := by simpa [heldAfter] using h
      simp [depth]
  | cons o p ih =>
      cases o with
      | acquire l =>
          rw [heldAfter] at h
          split at h
          · cases h
          · have hlen := ih h
            rw [List.length_cons] at hlen
            rw [depth]
            omega
      | release l =>
          rw [heldAfter] at h
          split at h
          · rename_i hmem
            have hlen := ih h
            have hpos := List.length_pos_of_mem hmem
            rw [List.length_erase_of_mem hmem] at hlen
            rw [depth]
            omega
          · cases h

/-! ## The interrupt state -/

theorem Cpu.blocked_pushcli (c : Cpu) : c.pushcli.blocked = true :=
  c.blocked_cli

/-- `pushcli` at depth zero never leaves `intena` zero: it sets the bit `BL` in it. -/
theorem Cpu.intena_pushcli {c : Cpu} (h : c.ncli = 0 ∨ c.intena ≠ 0#32) :
    c.pushcli.intena ≠ 0#32 := by
  have hne : c.sr ||| SR_BL_MASK ≠ 0#32 := by
    intro h0
    have hb := c.blocked_cli
    simp only [Cpu.blocked, Cpu.cli, h0] at hb
    exact absurd hb (by decide)
  unfold Cpu.pushcli
  by_cases hn : c.ncli = 0
  · simpa only [hn, if_true] using hne
  · simpa only [hn, if_false] using h.resolve_left hn

/-- The processor holds exactly the locks `held`. -/
structure Holding (s : LockState L) (held : List L) : Prop where
  nodup : held.Nodup
  mine : ∀ l ∈ held, s.lock l = ⟨true, some s.id⟩
  others : ∀ l, l ∉ held → (s.lock l).locked = false
  ncli : s.cpu.ncli = held.length
  blocked : held ≠ [] → s.cpu.blocked = true
  intena : held ≠ [] → s.cpu.intena ≠ 0#32

theorem Holding.acquire (h : Holding s held) {l : L} (hl : l ∉ held) :
    ∃ t, s.acquire l = some t ∧ Holding t (l :: held) := by
  have hfree := h.others l hl
  have hnot : s.holding l = false := by rw [LockState.holding, hfree, Bool.false_and]
  refine ⟨_, by rw [LockState.acquire, hnot, hfree]; rfl, ?_⟩
  constructor
  · exact List.nodup_cons.mpr ⟨hl, h.nodup⟩
  · intro l' hl'
    by_cases heq : l' = l
    · rw [heq]
      exact Function.update_self ..
    · show Function.update s.lock l _ l' = _
      rw [Function.update_of_ne heq]
      exact h.mine l' ((List.mem_cons.mp hl').resolve_left heq)
  · intro l' hl'
    rw [List.mem_cons, not_or] at hl'
    show (Function.update s.lock l _ l').locked = false
    rw [Function.update_of_ne hl'.1]
    exact h.others l' hl'.2
  · show s.cpu.ncli + 1 = _
    rw [h.ncli, List.length_cons]
  · exact fun _ => s.cpu.blocked_pushcli
  · intro _
    apply Cpu.intena_pushcli
    by_cases hnil : held = []
    · left
      rw [h.ncli, hnil, List.length_nil]
    · exact .inr (h.intena hnil)

omit [DecidableEq L] in
/-- `popcli` with locks held: the last one enables interrupts, whatever they were before. -/
theorem Holding.popcli (h : Holding s held) (hne : held ≠ []) :
    ∃ c, s.cpu.popcli = some c ∧ c.ncli = held.length - 1 ∧ c.intena = s.cpu.intena ∧
      c.blocked = decide (held.length ≠ 1) := by
  have hpos : 0 < held.length := List.length_pos_of_ne_nil hne
  have hb := h.blocked hne
  rw [Cpu.popcli, hb, if_neg (by decide), h.ncli, if_neg (by omega)]
  by_cases hone : held.length = 1
  · refine ⟨_, if_pos ⟨by omega, h.intena hne⟩, rfl, rfl, ?_⟩
    rw [Cpu.blocked_sti]
    simp [hone]
  · refine ⟨_, if_neg (by omega), rfl, rfl, ?_⟩
    have hsame : Cpu.blocked { s.cpu with ncli := held.length - 1 } = s.cpu.blocked := rfl
    rw [hsame, hb]
    simp [hone]

theorem Holding.release (h : Holding s held) {l : L} (hl : l ∈ held) :
    ∃ t, s.release l = some t ∧ Holding t (held.erase l) ∧
      (held.erase l = [] → t.cpu.blocked = false) := by
  have hmine := h.mine l hl
  have hhold : s.holding l = true := by simp [LockState.holding, hmine]
  obtain ⟨c, hpop, hncli, hintena, hblocked⟩ := h.popcli (List.ne_nil_of_mem hl)
  have hlen : (held.erase l).length = held.length - 1 := List.length_erase_of_mem hl
  have hpos : 0 < held.length := List.length_pos_of_mem hl
  refine ⟨_, by rw [LockState.release, hhold, hpop]; rfl, ?_, fun hnil => ?_⟩
  · constructor
    · exact h.nodup.erase l
    · intro l' hl'
      obtain ⟨hne, hmem⟩ := h.nodup.mem_erase_iff.mp hl'
      show Function.update s.lock l _ l' = _
      rw [Function.update_of_ne hne]
      exact h.mine l' hmem
    · intro l' hl'
      show (Function.update s.lock l _ l').locked = false
      by_cases heq : l' = l
      · rw [heq, Function.update_self]
      · rw [Function.update_of_ne heq]
        exact h.others l' fun hmem => hl' (h.nodup.mem_erase_iff.mpr ⟨heq, hmem⟩)
    · show c.ncli = _
      rw [hncli, hlen]
    · intro hne
      have := List.length_pos_of_ne_nil hne
      show c.blocked = true
      rw [hblocked]
      exact decide_eq_true (by omega)
    · intro hne
      show c.intena ≠ 0#32
      rw [hintena]
      exact h.intena (List.ne_nil_of_mem hl)
  · have : held.length = 1 := by
      rw [hnil, List.length_nil] at hlen
      omega
    show c.blocked = false
    rw [hblocked, this]
    rfl

/-- **The run of a sequence.** The locks are taken and released as planned, and interrupts are
enabled whenever the last lock has been released. -/
theorem Holding.run {held held' : List L} {p : List (LockOp L)} (h : Holding s held)
    (hp : heldAfter held p = some held') :
    ∃ t, runAll LockState.op s p = some t ∧ Holding t held' ∧
      (held' = [] → p ≠ [] → t.cpu.blocked = false) := by
  induction p generalizing s held with
  | nil =>
      obtain rfl : held = held' := by simpa [heldAfter] using hp
      exact ⟨s, rfl, h, fun _ hne => absurd rfl hne⟩
  | cons o p ih =>
      -- one operation leads to a state that again holds the locks it should
      have hnext : ∃ u held₁, s.op o = some u ∧ Holding u held₁ ∧ heldAfter held₁ p = some held' ∧
          (held₁ = [] → u.cpu.blocked = false) := by
        cases o with
        | acquire l =>
            rw [heldAfter] at hp
            split at hp
            · cases hp
            · rename_i hl
              obtain ⟨u, hu, hhold⟩ := h.acquire hl
              exact ⟨u, l :: held, hu, hhold, hp, fun hnil => by cases hnil⟩
        | release l =>
            rw [heldAfter] at hp
            split at hp
            · rename_i hl
              obtain ⟨u, hu, hhold, hlast⟩ := h.release hl
              exact ⟨u, held.erase l, hu, hhold, hp, hlast⟩
            · cases hp
      obtain ⟨u, held₁, hu, hhold, hrest, hlast⟩ := hnext
      obtain ⟨t, ht, hholdt, hend⟩ := ih hhold hrest
      refine ⟨t, by rw [runAll, hu, Option.bind_some, ht], hholdt, fun hnil _ => ?_⟩
      by_cases hpnil : p = []
      · subst hpnil
        obtain rfl : held₁ = held' := by simpa [heldAfter] using hrest
        obtain rfl : u = t := by simpa [runAll] using ht
        exact hlast hnil
      · exact hend hnil hpnil

/-- The sequence `ops` **restores the interrupt state**: at every point of it interrupts are blocked
while a lock is held, and outside of all sections they are as they were before. -/
def RestoresInterrupts (s : LockState L) (ops : List (LockOp L)) : Prop :=
  ∀ p, p <+: ops → ∃ t, runAll LockState.op s p = some t ∧
    (0 < depth p → t.cpu.blocked = true) ∧ (depth p = 0 → t.cpu.blocked = s.cpu.blocked)

/-- **A well-nested sequence restores the interrupt state exactly when interrupts were enabled
before it**: with interrupts blocked, the outermost `release` enables them. -/
theorem restoresInterrupts_iff {s : LockState L} {ops : List (LockOp L)} (hops : Nested [] ops)
    (hncli : s.cpu.ncli = 0) (hfree : ∀ l, (s.lock l).locked = false) :
    RestoresInterrupts s ops ↔ ops = [] ∨ s.cpu.blocked = false := by
  have hstart : Holding s [] :=
    ⟨List.nodup_nil, fun l hl => (List.not_mem_nil hl).elim, fun l _ => hfree l, hncli,
      fun hne => absurd rfl hne, fun hne => absurd rfl hne⟩
  constructor
  · intro h
    by_cases hnil : ops = []
    · exact Or.inl hnil
    · right
      obtain ⟨t, ht, -, hzero⟩ := h ops (List.prefix_refl ops)
      obtain ⟨t', ht', -, hend⟩ := hstart.run hops.heldAfter_eq
      obtain rfl : t = t' := by
        rw [ht] at ht'
        exact Option.some.inj ht'
      have hdepth : depth ops = 0 := by
        have := depth_eq hops.heldAfter_eq
        simpa using this
      rw [← hzero hdepth]
      exact hend rfl hnil
  · rintro hcase p ⟨q, rfl⟩
    have hall := hops.heldAfter_eq
    rw [heldAfter_append, Option.bind_eq_some_iff] at hall
    obtain ⟨held', hp, -⟩ := hall
    obtain ⟨t, ht, hhold, hend⟩ := hstart.run hp
    have hdepth := depth_eq hp
    rw [List.length_nil] at hdepth
    refine ⟨t, ht, fun hpos => hhold.blocked ?_, fun hzero => ?_⟩
    · intro hnil
      rw [hnil, List.length_nil] at hdepth
      omega
    · have hnil : held' = [] := List.length_eq_zero_iff.mp (by omega)
      by_cases hpnil : p = []
      · subst hpnil
        obtain rfl : s = t := by simpa [runAll] using ht
        rfl
      · have hclear : s.cpu.blocked = false := by
          rcases hcase with hops' | hclear
          · exact absurd (List.append_eq_nil_iff.mp hops').1 hpnil
          · exact hclear
        rw [hend hnil hpnil, hclear]

end

/-- A processor in an exception handler: interrupts are blocked, and its one lock is free. -/
def handlerState : LockState Unit := ⟨⟨0x50000000#32, 0, 0#32⟩, 0, fun _ => ⟨false, none⟩⟩

/-- One section of the lock. -/
theorem nested_section : Nested [] [LockOp.acquire (), LockOp.release ()] :=
  .sect (List.not_mem_nil) (.nil _) (.nil _)

/-- The section of one lock within that of another. -/
def innerSection : List (LockOp Bool) :=
  [.acquire true, .acquire false, .release false, .release true]

theorem nested_innerSection : Nested [] innerSection :=
  @Nested.sect Bool [] [.acquire false, .release false] [] true List.not_mem_nil
    (@Nested.sect Bool [true] [] [] false (by decide) (.nil _) (.nil _)) (.nil _)

/-- Two locks, one within the other, with interrupts enabled before. -/
theorem restoresInterrupts_iff_enabled :
    RestoresInterrupts ⟨⟨0x40000000#32, 0, 0#32⟩, 0, fun _ => ⟨false, none⟩⟩ innerSection ↔
      innerSection = [] ∨ Cpu.blocked ⟨0x40000000#32, 0, 0#32⟩ = false :=
  restoresInterrupts_iff nested_innerSection rfl fun _ => rfl

/-- **In an exception handler one section of a lock enables interrupts.** -/
theorem handler_interruptible :
    Nested [] [LockOp.acquire (), LockOp.release ()] ∧ handlerState.cpu.blocked = true ∧
      (runAll LockState.op handlerState [.acquire (), .release ()]).map (·.cpu.blocked) =
        some false ∧
      ¬ RestoresInterrupts handlerState [.acquire (), .release ()] := by
  refine ⟨nested_section, by decide, by decide, fun h => ?_⟩
  obtain ⟨t, ht, -, hzero⟩ := h _ (List.prefix_refl _)
  have hrun : (runAll LockState.op handlerState [.acquire (), .release ()]).map (·.cpu.blocked) =
      some false := by decide
  rw [ht, Option.map_some, hzero rfl] at hrun
  exact absurd hrun (by decide)

end Xv6

import Mathlib.Data.List.Nodup
import Mathlib.Logic.Function.Basic

/-! # Circular doubly linked lists

A list of nodes is threaded through a head node by two functions: `next` leads from the head
through the nodes in their order and back to the head, `prev` the other way round. A node is
`some a`, the head is `none`. -/

namespace Xv6.Lib

open Function (update update_of_ne update_self)

variable {α : Type*} [DecidableEq α]

/-- The links `f` lead from `a` through the nodes `l` to `z`. -/
def Leads (f : Option α → Option α) : Option α → List α → Option α → Prop
  | a, [], z => f a = z
  | a, b :: l, z => f a = some b ∧ Leads f (some b) l z

/-- The last node of a list that begins at `a`. -/
def lastFrom : Option α → List α → Option α
  | a, [] => a
  | _, b :: l => lastFrom (some b) l

variable {f : Option α → Option α} {l : List α}

omit [DecidableEq α] in
theorem leads_append {a z : Option α} {l m : List α} {b : α} :
    Leads f a (l ++ b :: m) z ↔ Leads f a l (some b) ∧ Leads f (some b) m z := by
  induction l generalizing a with
  | nil => rfl
  | cons c l ih => rw [List.cons_append, Leads, Leads, ih, and_assoc]

omit [DecidableEq α] in
theorem lastFrom_append (a : Option α) (l : List α) (b : α) : lastFrom a (l ++ [b]) = some b := by
  induction l generalizing a with
  | nil => rfl
  | cons c l ih => exact ih (some c)

omit [DecidableEq α] in
theorem lastFrom_mem {a : Option α} : lastFrom a l = a ∨ ∃ b ∈ l, lastFrom a l = some b := by
  induction l generalizing a with
  | nil => exact Or.inl rfl
  | cons c l ih =>
      right
      rcases ih (a := some c) with h | ⟨b, hb, h⟩
      · exact ⟨c, List.mem_cons_self .., h⟩
      · exact ⟨b, List.mem_cons_of_mem _ hb, h⟩

omit [DecidableEq α] in
/-- The node after `a`. -/
theorem Leads.first {a : Option α} (h : Leads f a l none) : f a = l.head? := by
  cases l with
  | nil => exact h
  | cons b l => exact h.1

omit [DecidableEq α] in
theorem lastFrom_reverse (l : List α) : lastFrom none l.reverse = l.head? := by
  cases l with
  | nil => rfl
  | cons b l => rw [List.reverse_cons, lastFrom_append, List.head?_cons]

/-- A link that is not on the way may be changed. -/
theorem Leads.update_of_notMem {a z x y : Option α} (h : Leads f a l z) (ha : a ≠ x)
    (hl : ∀ b ∈ l, some b ≠ x) :
    Leads (update f x y) a l z := by
  induction l generalizing a with
  | nil =>
      rw [Leads, update_of_ne ha]
      exact h
  | cons b l ih =>
      refine ⟨?_, ih h.2 (hl b (.head _)) fun c hc => hl c (.tail _ hc)⟩
      rw [update_of_ne ha]
      exact h.1

/-- The link of the last node may lead elsewhere. -/
theorem Leads.update_last {a z y : Option α} (h : Leads f a l z) (hnodup : l.Nodup)
    (ha : ∀ b ∈ l, a ≠ some b) :
    Leads (update f (lastFrom a l) y) a l y := by
  induction l generalizing a with
  | nil =>
      rw [Leads, lastFrom, update_self]
  | cons b l ih =>
      obtain ⟨hb, hnodup'⟩ := List.nodup_cons.mp hnodup
      have hlast : a ≠ lastFrom (some b) l := by
        intro heq
        rcases lastFrom_mem (a := some b) (l := l) with h' | ⟨c, hc, h'⟩
        · exact ha b (.head _) (heq.trans h')
        · exact ha c (.tail _ hc) (heq.trans h')
      refine ⟨?_, ih h.2 hnodup' fun c hc heq => hb ?_⟩
      · rw [lastFrom, update_of_ne hlast]
        exact h.1
      · rw [Option.some.inj heq]
        exact hc

/-- **Taking a node out** of a circular list in one direction. -/
theorem Leads.unlink {l m : List α} {b : α} (h : Leads f none (l ++ b :: m) none)
    (hnodup : (l ++ b :: m).Nodup) :
    Leads (update f (lastFrom none l) (f (some b))) none (l ++ m) none := by
  obtain ⟨hl, hm⟩ := leads_append.mp h
  obtain ⟨hnl, hnm, hdisj⟩ := List.nodup_append.mp hnodup
  have hl' := hl.update_last (y := f (some b)) hnl fun _ _ => nofun
  cases m with
  | nil =>
      rw [List.append_nil]
      have hend : f (some b) = none := hm
      rwa [hend] at hl' ⊢
  | cons c m =>
      have hnext : f (some b) = some c := hm.1
      rw [hnext] at hl' ⊢
      refine leads_append.mpr ⟨hl', hm.2.update_of_notMem ?_ fun d hd => ?_⟩
      · rcases lastFrom_mem (a := (none : Option α)) (l := l) with h' | ⟨d, hd, h'⟩
        · rw [h']
          exact nofun
        · rw [h']
          intro heq
          exact hdisj d hd c (by simp) (Option.some.inj heq).symm
      · rcases lastFrom_mem (a := (none : Option α)) (l := l) with h' | ⟨e, he, h'⟩
        · rw [h']
          exact nofun
        · rw [h']
          intro heq
          exact hdisj e he d (by simp [hd]) (Option.some.inj heq).symm

/-- **A circular doubly linked list** of the nodes `l`. -/
structure Linked (next prev : Option α → Option α) (l : List α) : Prop where
  nodup : l.Nodup
  next : Leads next none l none
  prev : Leads prev none l.reverse none

namespace Linked

variable {next prev : Option α → Option α}

omit [DecidableEq α] in
/-- The neighbours of a node. -/
theorem neighbours {l m : List α} {b : α} (h : Linked next prev (l ++ b :: m)) :
    prev (some b) = lastFrom none l ∧ next (some b) = lastFrom none m.reverse := by
  have hp := h.prev
  rw [List.reverse_append, List.reverse_cons, List.append_assoc, List.singleton_append] at hp
  rw [(leads_append.mp h.next).2.first, (leads_append.mp hp).2.first, lastFrom_reverse,
    ← lastFrom_reverse, List.reverse_reverse]
  exact ⟨rfl, rfl⟩

variable {l : List α}

omit [DecidableEq α] in
/-- The first node and the last one. -/
theorem ends (h : Linked next prev l) : next none = l.head? ∧ prev none = l.reverse.head? :=
  ⟨h.next.first, h.prev.first⟩

omit [DecidableEq α] in
/-- The list read the other way. -/
theorem symm (h : Linked next prev l) : Linked prev next l.reverse :=
  ⟨List.nodup_reverse.mpr h.nodup, h.prev, by rw [List.reverse_reverse]; exact h.next⟩

omit [DecidableEq α] in
/-- **`prev` undoes `next`** on the head and on every node of the list. -/
theorem prev_next (h : Linked next prev l) {x : Option α} (hx : ∀ b ∈ x, b ∈ l) :
    prev (next x) = x := by
  cases x with
  | none =>
      cases l with
      | nil => rw [h.ends.1]; exact h.ends.2
      | cons c l =>
          rw [h.ends.1, List.head?_cons]
          exact (neighbours (l := []) h).1
  | some b =>
      obtain ⟨l, m, rfl⟩ := List.append_of_mem (hx b rfl)
      rw [h.neighbours.2]
      cases m with
      | nil =>
          rw [List.reverse_nil, lastFrom, h.ends.2, List.reverse_append]
          rfl
      | cons c m =>
          have h' : Linked next prev ((l ++ [b]) ++ c :: m) := by
            rwa [List.append_assoc, List.singleton_append]
          rw [List.reverse_cons, lastFrom_append, h'.neighbours.1, lastFrom_append]

/-- **Taking a node out.** -/
theorem unlink {l m : List α} {b : α} (h : Linked next prev (l ++ b :: m)) :
    Linked (update next (prev (some b)) (next (some b)))
      (update prev (next (some b)) (prev (some b))) (l ++ m) := by
  obtain ⟨hprev, hnext⟩ := h.neighbours
  have hn := h.next.unlink h.nodup
  have hp := h.prev
  have hr := List.nodup_reverse.mpr h.nodup
  rw [List.reverse_append, List.reverse_cons, List.append_assoc, List.singleton_append] at hp hr
  have hp' := hp.unlink hr
  refine ⟨?_, ?_, ?_⟩
  · exact h.nodup.sublist (List.Sublist.append_left (List.sublist_cons_self ..) l)
  · rwa [← hprev] at hn
  · rw [← hnext] at hp'
    rwa [List.reverse_append]

/-- **Putting a node in front.** -/
theorem linkFirst {b : α} (h : Linked next prev l) (hb : b ∉ l) :
    Linked (update (update next (some b) (next none)) none (some b))
      (update (update prev (some b) none) (next none) (some b)) (b :: l) := by
  have hfirst : next none = lastFrom none l.reverse := by
    rw [h.next.first, lastFrom_reverse]
  have hne : ∀ c ∈ l, some c ≠ some b := fun c hc heq => hb (Option.some.inj heq ▸ hc)
  have hbfirst : some b ≠ next none := by
    rw [hfirst]
    rcases lastFrom_mem (a := (none : Option α)) (l := l.reverse) with h' | ⟨c, hc, h'⟩
    · rw [h']
      exact nofun
    · rw [h']
      exact (hne c (List.mem_reverse.mp hc)).symm
  refine ⟨List.nodup_cons.mpr ⟨hb, h.nodup⟩, ⟨update_self .., ?_⟩, ?_⟩
  · -- from the new node on the list goes on as before from the head
    cases l with
    | nil =>
        rw [Leads, update_of_ne (Option.some_ne_none b), update_self]
        exact h.next
    | cons c l =>
        refine ⟨?_, (h.next.2.update_of_notMem (hne c (by simp)) fun d hd =>
          hne d (by simp [hd])).update_of_notMem nofun fun d _ => nofun⟩
        rw [update_of_ne (Option.some_ne_none b), update_self]
        exact h.next.1
  · rw [List.reverse_cons]
    refine leads_append.mpr ⟨?_, ?_⟩
    · have hold := h.prev.update_of_notMem (x := some b) (y := none) nofun fun c hc =>
        hne c (List.mem_reverse.mp hc)
      have hlast := hold.update_last (y := some b) (List.nodup_reverse.mpr h.nodup) fun _ _ => nofun
      rwa [← hfirst] at hlast
    · rw [Leads, update_of_ne hbfirst, update_self]

end Linked

end Xv6.Lib

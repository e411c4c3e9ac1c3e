import Mathlib.Data.List.Basic
import Mathlib.Tactic.Common

/-! # Lines

A list is cut at every occurrence of a separator into the pieces that the separator ends, its
lines, and the piece behind the last separator, its tail. -/

namespace Xv6.Lib

variable {α : Type*} [DecidableEq α]

/-- **The lines of a list and its tail**. -/
def cut (sep : α) : List α → List (List α) × List α
  | [] => ([], [])
  | c :: s =>
    if c = sep then ([] :: (cut sep s).1, (cut sep s).2)
    else
      match (cut sep s).1 with
      | [] => ([], c :: (cut sep s).2)
      | l :: ls => ((c :: l) :: ls, (cut sep s).2)

variable {sep : α}

/-- A list without separators is all tail. -/
theorem cut_of_not_mem {t : List α} (h : sep ∉ t) : cut sep t = ([], t) := by
  induction t with
  | nil => rfl
  | cons c t ih =>
      obtain ⟨hc, ht⟩ := List.ne_and_not_mem_of_not_mem_cons h
      rw [cut, if_neg hc.symm, ih ht]

/-- The first line of a list. -/
theorem cut_append_cons {l : List α} (s : List α) (h : sep ∉ l) :
    cut sep (l ++ sep :: s) = (l :: (cut sep s).1, (cut sep s).2) := by
  induction l with
  | nil => rw [List.nil_append, cut, if_pos rfl]
  | cons c l ih =>
      obtain ⟨hc, hl⟩ := List.ne_and_not_mem_of_not_mem_cons h
      rw [List.cons_append, cut, if_neg hc.symm, ih hl]

/-- **Induction over the lines of a list**. -/
@[elab_as_elim]
theorem line_induction (sep : α) {P : List α → Prop} (tail : ∀ t, sep ∉ t → P t)
    (line : ∀ l s, sep ∉ l → P s → P (l ++ sep :: s)) (s : List α) : P s := by
  induction hn : s.length using Nat.strongRecOn generalizing s with
  | ind n ih =>
      by_cases h : sep ∈ s
      · obtain ⟨l, s', rfl, hl⟩ := List.eq_append_cons_of_mem h
        refine line l s' hl (ih s'.length ?_ s' rfl)
        rw [← hn, List.length_append, List.length_cons]
        omega
      · exact tail s h

/-- The tail has no separator. -/
theorem not_mem_cut_snd (s : List α) : sep ∉ (cut sep s).2 := by
  induction s using line_induction sep with
  | tail t h => rwa [cut_of_not_mem h]
  | line l s h ih => rwa [cut_append_cons s h]

/-- **Lines of an extended list**: what is appended extends the tail. -/
theorem cut_append (d r : List α) :
    cut sep (d ++ r) =
      ((cut sep d).1 ++ (cut sep ((cut sep d).2 ++ r)).1, (cut sep ((cut sep d).2 ++ r)).2) := by
  induction d using line_induction sep with
  | tail t h => rw [cut_of_not_mem h, List.nil_append]
  | line l s h ih =>
      rw [List.append_assoc, List.cons_append, cut_append_cons _ h, cut_append_cons _ h, ih]
      rfl

end Xv6.Lib

import Mathlib.Algebra.BigOperators.Fin
import Mathlib.Algebra.BigOperators.Group.Finset.Piecewise
import Mathlib.Algebra.Order.BigOperators.Group.Finset

/-! # Counting references

Sums over finitely many holders, and how often a table mentions a thing. What changes at one place
changes the sum by the difference at that place. -/

namespace Xv6.Lib

variable {ι α : Type} [Fintype ι] [DecidableEq ι]

/-- **A change at one place.** -/
theorem sum_add_of_eq_off {f g : ι → Nat} (a : ι) (h : ∀ x, x ≠ a → g x = f x) :
    ∑ x, g x + f a = ∑ x, f x + g a := by
  have hsum (k : ι → Nat) : ∑ x, k x = k a + ∑ x ∈ Finset.univ.erase a, k x :=
    (Finset.add_sum_erase _ _ (Finset.mem_univ a)).symm
  have hrest : ∑ x ∈ Finset.univ.erase a, g x = ∑ x ∈ Finset.univ.erase a, f x :=
    Finset.sum_congr rfl fun x hx => h x (Finset.ne_of_mem_erase hx)
  rw [hsum g, hsum f, hrest]
  omega

omit [DecidableEq ι] in
/-- One holder has no more than all together. -/
theorem le_sum (f : ι → Nat) (a : ι) : f a ≤ ∑ x, f x :=
  Finset.single_le_sum (fun _ _ => Nat.zero_le _) (Finset.mem_univ a)

/-- Two holders have no more than all together. -/
theorem add_le_sum (f : ι → Nat) {a b : ι} (h : a ≠ b) : f a + f b ≤ ∑ x, f x := by
  have hsum : ∑ x, f x = f a + ∑ x ∈ Finset.univ.erase a, f x :=
    (Finset.add_sum_erase _ _ (Finset.mem_univ a)).symm
  have hmem : b ∈ Finset.univ.erase a := Finset.mem_erase.mpr ⟨h.symm, Finset.mem_univ b⟩
  have hle : f b ≤ ∑ x ∈ Finset.univ.erase a, f x :=
    Finset.single_le_sum (f := f) (fun _ _ => Nat.zero_le _) hmem
  omega

section Occ

variable [DecidableEq α]

/-- How often a table mentions a thing. -/
def occ (o : ι → Option α) (x : α) : Nat := ∑ i, if o i = some x then 1 else 0

omit [DecidableEq ι] in
theorem occ_none (x : α) : occ (fun _ : ι => none) x = 0 := by simp [occ]

variable {o : ι → Option α}

omit [DecidableEq ι] in
theorem one_le_occ {i : ι} {x : α} (h : o i = some x) : 1 ≤ occ o x := by
  have hle := le_sum (fun j => if o j = some x then 1 else 0) i
  simp only [h, if_true] at hle
  exact hle

/-- An entry replaced. -/
theorem occ_update (o : ι → Option α) (i : ι) (y : Option α) (x : α) :
    occ (Function.update o i y) x + (if o i = some x then 1 else 0) =
      occ o x + (if y = some x then 1 else 0) := by
  have hoff : ∀ j, j ≠ i →
      (if Function.update o i y j = some x then 1 else 0) = if o j = some x then 1 else 0 :=
    fun j hj => by rw [Function.update_of_ne hj]
  have hsum := sum_add_of_eq_off i hoff
  rwa [Function.update_self] at hsum

/-- An empty entry set. -/
theorem occ_set {i : ι} (h : o i = none) (y x : α) :
    occ (Function.update o i (some y)) x = occ o x + if y = x then 1 else 0 := by
  have hocc := occ_update o i (some y) x
  simpa only [h, reduceCtorEq, if_false, Nat.add_zero, Option.some.injEq] using hocc

/-- An entry cleared. -/
theorem occ_clear {i : ι} {y : α} (h : o i = some y) (x : α) :
    occ (Function.update o i none) x + (if y = x then 1 else 0) = occ o x := by
  have hocc := occ_update o i none x
  simpa only [h, reduceCtorEq, if_false, Nat.add_zero, Option.some.injEq] using hocc

end Occ

end Xv6.Lib

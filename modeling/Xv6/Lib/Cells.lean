import Mathlib.Logic.Function.Basic

/-! # Cells that store numbers

A family of cells, each of which stores a number or zero for nothing. What a resource allocator
keeps is that no number is stored twice. -/

namespace Xv6.Lib

variable {α : Type*}

/-- **No number other than zero is stored in two cells.** -/
def Unique (f : α → Nat) : Prop := ∀ x y, f x ≠ 0 → f x = f y → x = y

/-- Storing a number that no cell stores yet. -/
theorem Unique.update [DecidableEq α] {f : α → Nat} (h : Unique f) {b : Nat} (hb : ∀ x, f x ≠ b)
    (a : α) : Unique (Function.update f a b) := by
  intro x y hx hxy
  by_cases hxa : x = a
  · by_cases hya : y = a
    · rw [hxa, hya]
    · rw [hxa, Function.update_self, Function.update_of_ne hya] at hxy
      exact absurd hxy.symm (hb y)
  · rw [Function.update_of_ne hxa] at hx hxy
    by_cases hya : y = a
    · rw [hya, Function.update_self] at hxy
      exact absurd hxy (hb x)
    · rw [Function.update_of_ne hya] at hxy
      exact h x y hx hxy

end Xv6.Lib

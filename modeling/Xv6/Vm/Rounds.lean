import Xv6.Vm.Phys

/-! # More rounds

What a function does to the memory does not depend on the number of rounds that its loops are given:
unless it runs out of them, it does the same with more of them. -/

namespace Xv6.Vm

open Lib Run

variable {n m : Nat}

section

variable (h : n ≤ m)

include h

theorem le_mappagesLoop {pgdir last perm : Nat} (a pa : Nat) :
    Le .loop (mappagesLoop pgdir last perm n a pa) (mappagesLoop pgdir last perm m a pa) := by
  induction n generalizing m a pa with
  | zero => exact Le.stop
  | succ n ih =>
      obtain ⟨m, rfl⟩ : ∃ i, m = i + 1 := ⟨m - 1, by omega⟩
      rw [mappagesLoop, mappagesLoop]
      refine (Le.refl _).bind fun pte => ?_
      cases pte with
      | none => exact Le.refl _
      | some pte =>
          refine (Le.refl _).bind fun v => Le.ite (Le.refl _) ((Le.refl _).bind fun _ => ?_)
          exact Le.ite (Le.refl _) (ih (by omega) _ _)

theorem le_mappages {pgdir la size pa perm : Nat} :
    Le .loop (mappages n pgdir la size pa perm) (mappages m pgdir la size pa perm) :=
  le_mappagesLoop h _ _

theorem le_deallocuvmLoop {pgdir last : Nat} (a : Nat) :
    Le .loop (deallocuvmLoop pgdir last n a) (deallocuvmLoop pgdir last m a) := by
  induction n generalizing m a with
  | zero => exact Le.stop
  | succ n ih =>
      obtain ⟨m, rfl⟩ : ∃ i, m = i + 1 := ⟨m - 1, by omega⟩
      rw [deallocuvmLoop, deallocuvmLoop]
      exact Le.ite ((Le.refl _).bind fun _ => ih (by omega) _) (Le.refl _)

theorem le_deallocuvm {pgdir oldsz newsz : Nat} :
    Le .loop (deallocuvm n pgdir oldsz newsz) (deallocuvm m pgdir oldsz newsz) :=
  (le_deallocuvmLoop h _).bind fun _ => Le.refl _

theorem le_allocuvmLoop {pgdir oldsz newsz i j : Nat} (hij : i ≤ j) (a : Nat) :
    Le .loop (allocuvmLoop n pgdir oldsz newsz i a) (allocuvmLoop m pgdir oldsz newsz j a) := by
  induction i generalizing j a with
  | zero => exact Le.stop
  | succ i ih =>
      obtain ⟨j, rfl⟩ : ∃ k, j = k + 1 := ⟨j - 1, by omega⟩
      rw [allocuvmLoop, allocuvmLoop]
      refine Le.ite ((Le.refl _).bind fun mem => ?_) (Le.refl _)
      cases mem with
      | none => exact (le_deallocuvm h).bind fun _ => Le.refl _
      | some mem =>
          exact (Le.refl _).bind fun _ => (le_mappages h).bind fun _ => ih (by omega) _

theorem le_allocuvm {pgdir oldsz newsz : Nat} :
    Le .loop (allocuvm n pgdir oldsz newsz) (allocuvm m pgdir oldsz newsz) :=
  Le.ite (Le.refl _) ((le_allocuvmLoop h h _).bind fun _ => Le.refl _)

theorem le_freevm {pgdir : Nat} : Le .loop (freevm n pgdir) (freevm m pgdir) :=
  Le.ite (Le.refl _) ((le_deallocuvm h).bind fun _ => Le.refl _)

theorem le_copyuvmLoop {pgdir d sz i j : Nat} (hij : i ≤ j) (a : Nat) :
    Le .loop (copyuvmLoop n pgdir d sz i a) (copyuvmLoop m pgdir d sz j a) := by
  induction i generalizing j a with
  | zero => exact Le.stop
  | succ i ih =>
      obtain ⟨j, rfl⟩ : ∃ k, j = k + 1 := ⟨j - 1, by omega⟩
      rw [copyuvmLoop, copyuvmLoop]
      refine Le.ite ((Le.refl _).bind fun pte => ?_) (Le.refl _)
      cases pte with
      | none => exact Le.refl _
      | some pte =>
          refine (Le.refl _).bind fun v => Le.ite (Le.refl _) ((Le.refl _).bind fun mem => ?_)
          cases mem with
          | none => exact Le.refl _
          | some mem =>
              exact (Le.refl _).bind fun _ => (le_mappages h).bind fun ok =>
                Le.ite (ih (by omega) _) (Le.refl _)

theorem le_copyuvm {pgdir sz : Nat} : Le .loop (copyuvm n pgdir sz) (copyuvm m pgdir sz) := by
  refine (Le.refl _).bind fun d => ?_
  cases d with
  | none => exact Le.refl _
  | some d =>
      exact (le_copyuvmLoop h h _).bind fun ok =>
        Le.ite (Le.refl _) ((le_freevm h).bind fun _ => Le.refl _)

theorem le_switchuvm {pgdir : Nat} : Le .loop (switchuvm n pgdir) (switchuvm m pgdir) := by
  have hloop : ∀ n m va, n ≤ m → Le .loop (switchuvmLoop pgdir n va) (switchuvmLoop pgdir m va) := by
    intro n
    induction n with
    | zero => exact fun _ _ _ => Le.stop
    | succ n ih =>
        intro m va hnm
        obtain ⟨m, rfl⟩ : ∃ i, m = i + 1 := ⟨m - 1, by omega⟩
        rw [switchuvmLoop, switchuvmLoop]
        refine (Le.refl _).bind fun pte => ?_
        cases pte with
        | none => exact Le.refl _
        | some pte =>
            exact (Le.refl _).bind fun v => Le.ite (Le.refl _) (ih _ _ (by omega))
  exact Le.ite (Le.refl _) (hloop n m 0 h)

theorem le_growproc {pgdir sz : Nat} {k : Int} :
    Le .loop (growproc n pgdir sz k) (growproc m pgdir sz k) :=
  Le.ite
    ((le_allocuvm h).bind fun _ => Le.ite (Le.refl _) ((le_switchuvm h).bind fun _ => Le.refl _))
    (Le.ite
      ((le_deallocuvm h).bind fun _ => Le.ite (Le.refl _) ((le_switchuvm h).bind fun _ => Le.refl _))
      ((le_switchuvm h).bind fun _ => Le.refl _))

end

end Xv6.Vm

import Mathlib.Data.Nat.Digits.Defs
import Mathlib.Tactic.Common

/-! # Shortest numerals

The digits of a number without leading zeros, except that zero has the one digit `0`. They are least
significant first, as in `Nat.digits`, and no other digits of the number are fewer. -/

namespace Xv6.Lib

/-- **The digits** of a number, at least one. -/
def numeral (b n : Nat) : List Nat := if n = 0 then [0] else b.digits n

variable {b : Nat} (hb : 1 < b)
include hb

/-- A numeral is its last digit after the numeral of the quotient, if that is not zero. -/
theorem numeral_eq (n : Nat) :
    numeral b n = n % b :: if n / b = 0 then [] else numeral b (n / b) := by
  unfold numeral
  by_cases hn : n = 0
  · subst hn
    simp
  · rw [if_neg hn, Nat.digits_def' hb (Nat.pos_of_ne_zero hn)]
    by_cases hq : n / b = 0
    · rw [if_pos hq, hq, Nat.digits_zero]
    · rw [if_neg hq, if_neg hq]

theorem numeral_ne_nil (n : Nat) : numeral b n ≠ [] := by
  rw [numeral_eq hb]
  exact List.cons_ne_nil _ _

theorem lt_of_mem_numeral {n d : Nat} (hd : d ∈ numeral b n) : d < b := by
  unfold numeral at hd
  split at hd
  · rw [List.mem_singleton] at hd
    omega
  · exact Nat.digits_lt_base hb hd

omit hb in
theorem ofDigits_numeral (n : Nat) : Nat.ofDigits b (numeral b n) = n := by
  unfold numeral
  split
  · rename_i hn
    rw [hn, Nat.ofDigits_singleton]
  · exact Nat.ofDigits_digits b n

/-- A number below `b ^ k` has at most `k` digits. -/
theorem length_numeral_le {n k : Nat} (hk : 0 < k) (hn : n < b ^ k) : (numeral b n).length ≤ k := by
  induction k generalizing n with
  | zero => exact absurd hk (lt_irrefl 0)
  | succ k ih =>
      rw [numeral_eq hb, List.length_cons]
      by_cases hq : n / b = 0
      · rw [if_pos hq, List.length_nil]
        omega
      · have hlt : n / b < b ^ k := Nat.div_lt_of_lt_mul (by rwa [Nat.pow_succ'] at hn)
        have hpos : 0 < k := by
          rcases Nat.eq_zero_or_pos k with rfl | h
          · exact absurd (Nat.lt_one_iff.mp hlt) hq
          · exact h
        rw [if_neg hq]
        exact Nat.succ_le_succ (ih hpos hlt)

/-- **No digits of the number are fewer.** -/
theorem length_numeral_le_of_ofDigits {ds : List Nat} (hne : ds ≠ []) (hds : ∀ d ∈ ds, d < b) :
    (numeral b (Nat.ofDigits b ds)).length ≤ ds.length :=
  length_numeral_le hb (List.length_pos_iff.mpr hne) (Nat.ofDigits_lt_base_pow_length hb hds)

end Xv6.Lib

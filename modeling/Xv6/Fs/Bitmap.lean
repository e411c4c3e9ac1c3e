import Xv6.Fs.Layout
import Mathlib.Tactic.IntervalCases

/-! # Bitmap blocks

Setting and clearing one bit of a bitmap block leaves the others as they are. -/

namespace Xv6.Fs

open Lib

/-- The bits of a byte that is written back. -/
theorem testBit_ofNat {x : Nat} (hx : x < 256) (k : Nat) :
    (UInt8.ofNat x).toNat.testBit k = x.testBit k := by
  rw [UInt8.toNat_ofNat']
  exact congrArg (Nat.testBit · k) (Nat.mod_eq_of_lt hx)

/-- The bits of a block in which one byte is overwritten. -/
theorem bitAt_blit (b : Block) {i : Nat} (hi : i < BPB) {x : Nat} (hx : x < 256) (j : Nat) :
    bitAt (b.blit (i / 8) [UInt8.ofNat x]) j =
      if j / 8 = i / 8 then x.testBit (j % 8) else bitAt b j := by
  have hfit : i / 8 + [UInt8.ofNat x].length ≤ BSIZE := by
    simp only [BPB, BSIZE] at hi
    rw [List.length_singleton, BSIZE]
    omega
  rw [bitAt, Bytes.byte_blit b hfit]
  by_cases hj : j / 8 = i / 8
  · have hput := put_of_mem b.byte (i / 8) [UInt8.ofNat x] (i := 0) (by simp) 0
    rw [Nat.add_zero, List.getD_cons_zero] at hput
    rw [if_pos hj, hj, hput, testBit_ofNat hx]
  · rw [if_neg hj, put_of_notMem _ _ _ (by rw [List.length_singleton]; omega)]
    rfl

theorem eq_of_div_mod {i j : Nat} (hdiv : j / 8 = i / 8) (hmod : j % 8 = i % 8) : j = i := by
  omega

/-- **Setting a bit.** -/
theorem bitAt_setBit (b : Block) {i : Nat} (hi : i < BPB) (j : Nat) :
    bitAt (setBit b i) j = (decide (j = i) || bitAt b j) := by
  have hbyte : (b.byte (i / 8)).toNat < 2 ^ 8 := (b.byte (i / 8)).toNat_lt
  have hpow : 2 ^ (i % 8) < 2 ^ 8 := Nat.pow_lt_pow_right (by omega) (by omega)
  rw [setBit, bitAt_blit b hi (Nat.or_lt_two_pow hbyte hpow)]
  by_cases hdiv : j / 8 = i / 8
  · rw [if_pos hdiv, Nat.testBit_or, Nat.testBit_two_pow, bitAt, hdiv, Bool.or_comm]
    congr 1
    by_cases hmod : j % 8 = i % 8
    · rw [decide_eq_true hmod.symm, decide_eq_true (eq_of_div_mod hdiv hmod)]
    · rw [decide_eq_false (fun h => hmod h.symm), decide_eq_false (fun h => hmod (by rw [h]))]
  · rw [if_neg hdiv, decide_eq_false (fun h => hdiv (by rw [h])), Bool.false_or]

/-- **Clearing a bit.** -/
theorem bitAt_clearBit (b : Block) {i : Nat} (hi : i < BPB) (j : Nat) :
    bitAt (clearBit b i) j = (decide (j ≠ i) && bitAt b j) := by
  have hbyte : (b.byte (i / 8)).toNat < 256 := (b.byte (i / 8)).toNat_lt
  have hmask (k : Nat) (hk : k < 8) :
      (255 ^^^ 2 ^ (i % 8)).testBit k = decide (k ≠ i % 8) := by
    have hall : Nat.testBit 255 k = true := by
      interval_cases k <;> rfl
    rw [Nat.testBit_xor, hall, Nat.testBit_two_pow]
    by_cases hki : i % 8 = k
    · simp [hki]
    · simp [hki, Ne.symm hki]
  rw [clearBit, bitAt_blit b hi (Nat.lt_of_le_of_lt Nat.and_le_left hbyte)]
  by_cases hdiv : j / 8 = i / 8
  · rw [if_pos hdiv, Nat.testBit_and, hmask _ (Nat.mod_lt _ (by decide)), bitAt, hdiv,
      Bool.and_comm]
    congr 1
    exact decide_eq_decide.mpr (not_congr ⟨eq_of_div_mod hdiv, fun h => by rw [h]⟩)
  · have hne : j ≠ i := fun h => hdiv (by rw [h])
    rw [if_neg hdiv, decide_eq_true hne, Bool.true_and]

end Xv6.Fs

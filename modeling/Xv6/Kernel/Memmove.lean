import Mathlib.Algebra.Group.Nat.Defs
import Mathlib.Logic.Function.Basic
import Mathlib.Tactic.Common

/-! # The two `memmove`s

`memmove` of `string.c`, which picks the direction of the copy, and `memmove` of `ulib.c`, which
always copies upwards, on a memory of `2 ^ 32` bytes with pointers that wrap. The kernel's function
is a simultaneous copy (`memmove_simultaneous`). The library's function agrees with it except where
the destination starts inside the source (`ulib_memmove_eq_iff`). -/

namespace Xv6.Str

/-- **The memory**: a byte at every address. -/
abbrev Memory := BitVec 32 → UInt8

/-- `while(n-- > 0) *d++ = *s++;`. -/
def copyUp (m : Memory) (d s : BitVec 32) : (n : Nat) → Memory
  | 0 => m
  | n + 1 => copyUp (Function.update m d (m s)) (d + 1) (s + 1) n

/-- `while(n-- > 0) *--d = *--s;`. -/
def copyDown (m : Memory) (d s : BitVec 32) : (n : Nat) → Memory
  | 0 => m
  | n + 1 => copyDown (Function.update m (d - 1) (m (s - 1))) (d - 1) (s - 1) n

/-- `memmove` of `string.c`: the pointer returned and the memory. -/
def memmove (m : Memory) (dst src n : BitVec 32) : BitVec 32 × Memory :=
  if src < dst ∧ src + n > dst then (dst, copyDown m (dst + n) (src + n) n.toNat)
  else (dst, copyUp m dst src n.toNat)

/-- `memmove` of `ulib.c`, where `n` is an `int`: the pointer returned and the memory. -/
def ulibMemmove (m : Memory) (vdst vsrc n : BitVec 32) : BitVec 32 × Memory :=
  (vdst, copyUp m vdst vsrc n.toInt.toNat)

/-! ## Addresses of a range -/

section Address

variable {a : BitVec 32} {i j : Nat}

theorem toNat_addr (h : a.toNat + i < 2 ^ 32) : (a + BitVec.ofNat 32 i).toNat = a.toNat + i := by
  bv_omega

theorem addr_succ : a + 1 + BitVec.ofNat 32 i = a + BitVec.ofNat 32 (i + 1) := by
  bv_omega

theorem addr_pred : a + BitVec.ofNat 32 (i + 1) - 1 = a + BitVec.ofNat 32 i := by
  bv_omega

end Address

/-! ## Bytes outside the destination -/

variable (m : Memory)

/-- The bytes outside `[d, d + n)` stay. -/
theorem copyUp_of_notMem (d s : BitVec 32) (n : Nat) {a : BitVec 32}
    (h : ∀ i < n, a ≠ d + BitVec.ofNat 32 i) : copyUp m d s n a = m a := by
  induction n generalizing m d s with
  | zero => rfl
  | succ n ih =>
      have hhead : a ≠ d := by simpa using h 0 (Nat.succ_pos n)
      have htail : ∀ i < n, a ≠ d + 1 + BitVec.ofNat 32 i := by
        intro i hi
        rw [addr_succ]
        exact h (i + 1) (Nat.succ_lt_succ hi)
      rw [copyUp, ih _ _ _ htail, Function.update_of_ne hhead]

/-- The bytes outside `[d, d + n)` stay. -/
theorem copyDown_of_notMem (d s : BitVec 32) (n : Nat) {a : BitVec 32}
    (h : ∀ i < n, a ≠ d + BitVec.ofNat 32 i) :
    copyDown m (d + BitVec.ofNat 32 n) (s + BitVec.ofNat 32 n) n a = m a := by
  induction n generalizing m with
  | zero => rfl
  | succ n ih =>
      rw [copyDown, addr_pred, addr_pred, ih _ fun i hi => h i (Nat.lt_succ_of_lt hi),
        Function.update_of_ne (h n (Nat.lt_succ_self n))]

/-- An address outside a range is none of its addresses. -/
theorem ne_addr {a d : BitVec 32} {n : Nat} (hd : d.toNat + n ≤ 2 ^ 32)
    (ha : a.toNat < d.toNat ∨ d.toNat + n ≤ a.toNat) : ∀ i < n, a ≠ d + BitVec.ofNat 32 i := by
  rintro i hi rfl
  rw [toNat_addr (by omega)] at ha
  omega

/-! ## Bytes of the destination -/

/-- **Copying upwards** is right unless the destination starts inside the source: a byte is read
before it is overwritten. -/
theorem copyUp_eq (d s : BitVec 32) (n : Nat) (hd : d.toNat + n ≤ 2 ^ 32)
    (hs : s.toNat + n ≤ 2 ^ 32) (h : d.toNat ≤ s.toNat ∨ s.toNat + n ≤ d.toNat) :
    ∀ i < n, copyUp m d s n (d + BitVec.ofNat 32 i) = m (s + BitVec.ofNat 32 i) := by
  induction n generalizing m d s with
  | zero => nofun
  | succ n ih =>
      intro i hi
      rw [copyUp]
      cases i with
      | zero =>
          rw [copyUp_of_notMem _ _ _ _ fun i hi => by bv_omega]
          simp
      | succ i =>
          rw [← addr_succ, ih _ (d + 1) (s + 1) (by bv_omega) (by bv_omega) (by bv_omega) i (by omega),
            Function.update_of_ne (by bv_omega), addr_succ]

/-- **Copying downwards** is right unless the source starts inside the destination. -/
theorem copyDown_eq (d s : BitVec 32) (n : Nat) (hd : d.toNat + n ≤ 2 ^ 32)
    (hs : s.toNat + n ≤ 2 ^ 32) (h : s.toNat ≤ d.toNat) :
    ∀ i < n, copyDown m (d + BitVec.ofNat 32 n) (s + BitVec.ofNat 32 n) n (d + BitVec.ofNat 32 i) =
      m (s + BitVec.ofNat 32 i) := by
  induction n generalizing m with
  | zero => nofun
  | succ n ih =>
      intro i hi
      rw [copyDown, addr_pred, addr_pred]
      by_cases hin : i < n
      · rw [ih _ (by omega) (by omega) i hin, Function.update_of_ne (by bv_omega)]
      · obtain rfl : i = n := by omega
        rw [copyDown_of_notMem _ _ _ _ fun j hj => by bv_omega, Function.update_self]

/-- **Copying upwards from below** repeats what it has written: afterwards every byte of the
destination equals the byte at the same place of the source. -/
theorem copyUp_repeats (d s : BitVec 32) (n : Nat) (hd : d.toNat + n ≤ 2 ^ 32)
    (h : s.toNat < d.toNat) :
    ∀ i < n, copyUp m d s n (d + BitVec.ofNat 32 i) = copyUp m d s n (s + BitVec.ofNat 32 i) := by
  induction n generalizing m d s with
  | zero => nofun
  | succ n ih =>
      intro i hi
      rw [copyUp]
      cases i with
      | zero =>
          rw [copyUp_of_notMem _ _ _ _ fun i hi => by bv_omega,
            copyUp_of_notMem _ _ _ _ fun i hi => by bv_omega]
          simp only [BitVec.add_zero, Function.update_self]
          exact (Function.update_of_ne (by bv_omega) ..).symm
      | succ i =>
          rw [← addr_succ, ← addr_succ]
          exact ih _ (d + 1) (s + 1) (by bv_omega) (by bv_omega) i (by omega)

/-! ## The functions -/

/-- The test of `memmove` says whether the destination starts inside the source: `src + n` does not
wrap when the destination is above the source. -/
theorem memmove_test {dst src n : BitVec 32} (hd : dst.toNat + n.toNat ≤ 2 ^ 32) :
    (src < dst ∧ src + n > dst) ↔
      src.toNat < dst.toNat ∧ dst.toNat < src.toNat + n.toNat := by
  bv_omega

/-- The bytes that `memmove` copies. -/
theorem memmove_of_mem {dst src n : BitVec 32} (hd : dst.toNat + n.toNat ≤ 2 ^ 32)
    (hs : src.toNat + n.toNat ≤ 2 ^ 32) {i : Nat} (hi : i < n.toNat) :
    (memmove m dst src n).2 (dst + BitVec.ofNat 32 i) = m (src + BitVec.ofNat 32 i) := by
  unfold memmove
  by_cases h : src < dst ∧ src + n > dst
  · have hdown := copyDown_eq m dst src n.toNat hd hs (by bv_omega) i hi
    rw [BitVec.ofNat_toNat, BitVec.setWidth_eq] at hdown
    rw [if_pos h]
    exact hdown
  · rw [if_neg h]
    exact copyUp_eq m dst src n.toNat hd hs (by rw [memmove_test hd] at h; omega) i hi

/-- The bytes that `memmove` leaves alone. -/
theorem memmove_of_notMem {dst src n a : BitVec 32}
    (h : ∀ i < n.toNat, a ≠ dst + BitVec.ofNat 32 i) : (memmove m dst src n).2 a = m a := by
  unfold memmove
  by_cases htest : src < dst ∧ src + n > dst
  · have hdown := copyDown_of_notMem m dst src n.toNat h
    rw [BitVec.ofNat_toNat, BitVec.setWidth_eq] at hdown
    rw [if_pos htest]
    exact hdown
  · rw [if_neg htest]
    exact copyUp_of_notMem m dst src n.toNat h

/-- **`memmove` of the kernel is a simultaneous copy**, however the ranges overlap. -/
theorem memmove_simultaneous (m : Memory) (dst src n : BitVec 32)
    (hd : dst.toNat + n.toNat ≤ 2 ^ 32) (hs : src.toNat + n.toNat ≤ 2 ^ 32) :
    (∀ i < n.toNat,
      (memmove m dst src n).2 (dst + BitVec.ofNat 32 i) = m (src + BitVec.ofNat 32 i)) ∧
    ∀ a : BitVec 32, (a.toNat < dst.toNat ∨ dst.toNat + n.toNat ≤ a.toNat) →
      (memmove m dst src n).2 a = m a :=
  ⟨fun _ hi => memmove_of_mem m hd hs hi, fun _ ha => memmove_of_notMem m (ne_addr hd ha)⟩

/-- A move by one byte up to the end of the address space, where `dst + n` is `0`. -/
theorem memmove_simultaneous_top :
    let m : Memory := fun a => UInt8.ofNat a.toNat
    let r := (memmove m 0xfffffffd 0xfffffffc 3).2
    r 0xfffffffd = 0xfc ∧ r 0xfffffffe = 0xfd ∧ r 0xffffffff = 0xfe ∧ r 0xfffffffc = 0xfc := by
  obtain ⟨hmem, hout⟩ := memmove_simultaneous (fun a => UInt8.ofNat a.toNat) 0xfffffffd 0xfffffffc 3
    (by decide) (by decide)
  exact ⟨hmem 0 (by decide), hmem 1 (by decide), hmem 2 (by decide), hout 0xfffffffc (by decide)⟩

/-- The bytes that both ranges have in common equal the bytes at the same place of the source: the
source has the distance of the ranges as a period. -/
def Periodic (m : Memory) (dst src n : BitVec 32) : Prop :=
  ∀ i, dst.toNat + i < src.toNat + n.toNat →
    m (dst + BitVec.ofNat 32 i) = m (src + BitVec.ofNat 32 i)

section Library

variable {m : Memory} {vdst vsrc n : BitVec 32} (hn : 0 ≤ n.toInt)
include hn

theorem ulibMemmove_eq : ulibMemmove m vdst vsrc n = (vdst, copyUp m vdst vsrc n.toNat) := by
  have hround : n.toInt.toNat = n.toNat := by
    rw [BitVec.toInt_eq_toNat_cond] at hn ⊢
    split at hn <;> omega
  rw [ulibMemmove, hround]

/-- The two functions agree if they store the same bytes in the destination. -/
theorem ulibMemmove_eq_of_mem
    (h : ∀ i < n.toNat, copyUp m vdst vsrc n.toNat (vdst + BitVec.ofNat 32 i) =
      (memmove m vdst vsrc n).2 (vdst + BitVec.ofNat 32 i)) :
    (ulibMemmove m vdst vsrc n).2 = (memmove m vdst vsrc n).2 := by
  rw [ulibMemmove_eq hn]
  funext a
  by_cases ha : ∃ i < n.toNat, a = vdst + BitVec.ofNat 32 i
  · obtain ⟨i, hi, rfl⟩ := ha
    exact h i hi
  · have hne : ∀ i < n.toNat, a ≠ vdst + BitVec.ofNat 32 i := fun i hi heq => ha ⟨i, hi, heq⟩
    rw [memmove_of_notMem m hne]
    exact copyUp_of_notMem m vdst vsrc n.toNat hne

variable (hd : vdst.toNat + n.toNat ≤ 2 ^ 32) (hs : vsrc.toNat + n.toNat ≤ 2 ^ 32)
include hd hs

/-- Over a periodic source the library stores the right bytes, each from an earlier one. -/
theorem ulibMemmove_of_periodic (hlt : vsrc.toNat < vdst.toNat) (hp : Periodic m vdst vsrc n) :
    (ulibMemmove m vdst vsrc n).2 = (memmove m vdst vsrc n).2 := by
  refine ulibMemmove_eq_of_mem hn fun i => ?_
  induction i using Nat.strongRecOn with
  | ind i ih =>
      intro hi
      rw [memmove_of_mem m hd hs hi, copyUp_repeats m vdst vsrc n.toNat hd hlt i hi]
      by_cases hin : vsrc.toNat + i < vdst.toNat
      · exact copyUp_of_notMem m vdst vsrc n.toNat fun j hj => by bv_omega
      · -- the byte read is one that was stored before
        have hback : vsrc + BitVec.ofNat 32 i =
            vdst + BitVec.ofNat 32 (i - (vdst.toNat - vsrc.toNat)) := by bv_omega
        rw [hback, ih _ (by omega) (by omega), memmove_of_mem m hd hs (by omega)]
        exact (hp _ (by omega)).symm

/-- If the functions agree the source is periodic. -/
theorem periodic_of_ulibMemmove_eq (hlt : vsrc.toNat < vdst.toNat)
    (h : (ulibMemmove m vdst vsrc n).2 = (memmove m vdst vsrc n).2) : Periodic m vdst vsrc n := by
  intro i hi
  have hcopy : copyUp m vdst vsrc n.toNat = (memmove m vdst vsrc n).2 := by
    rw [← h, ulibMemmove_eq hn]
  -- the byte of the source that lies at `vdst + i`
  have hmove : vdst + BitVec.ofNat 32 i =
      vsrc + BitVec.ofNat 32 (i + (vdst.toNat - vsrc.toNat)) := by bv_omega
  have hrep := copyUp_repeats m vdst vsrc n.toNat hd hlt (i + (vdst.toNat - vsrc.toNat)) (by omega)
  rw [← hmove, hcopy, memmove_of_mem m hd hs (by omega), memmove_of_mem m hd hs (by omega)] at hrep
  rw [hmove, hrep]

end Library

/-- **`memmove` of the library agrees with the kernel's** exactly if the destination is not above
the source or the bytes that both ranges have in common repeat the source. -/
theorem ulib_memmove_eq_iff (m : Memory) (vdst vsrc n : BitVec 32) (hn : 0 ≤ n.toInt)
    (hd : vdst.toNat + n.toNat ≤ 2 ^ 32) (hs : vsrc.toNat + n.toNat ≤ 2 ^ 32) :
    (ulibMemmove m vdst vsrc n).2 = (memmove m vdst vsrc n).2 ↔
      (vsrc.toNat < vdst.toNat → Periodic m vdst vsrc n) := by
  constructor
  · intro h hlt
    exact periodic_of_ulibMemmove_eq hn hd hs hlt h
  · intro h
    by_cases hlt : vsrc.toNat < vdst.toNat
    · exact ulibMemmove_of_periodic hn hd hs hlt (h hlt)
    · refine ulibMemmove_eq_of_mem hn fun i hi => ?_
      rw [memmove_of_mem m hd hs hi]
      exact copyUp_eq m vdst vsrc n.toNat hd hs (Or.inl (by omega)) i hi

/-- Bytes that are all equal may be moved up by the library. -/
theorem ulib_memmove_eq_iff_const :
    (ulibMemmove (fun _ => 7) 1 0 2).2 = (memmove (fun _ => 7) 1 0 2).2 :=
  (ulib_memmove_eq_iff (fun _ => 7) 1 0 2 (by decide) (by decide) (by decide)).mpr fun _ _ _ => rfl

/-- **Moving two bytes up by one**: the library stores the first byte twice. -/
theorem ulib_memmove_up :
    let m : Memory := fun a => UInt8.ofNat a.toNat
    (ulibMemmove m 1 0 2).2 2 = 0 ∧ (memmove m 1 0 2).2 2 = 1 ∧
      (ulibMemmove m 1 0 2).2 ≠ (memmove m 1 0 2).2 := by
  intro m
  have hulib : (ulibMemmove m 1 0 2).2 2 = 0 := by decide
  have hkernel : (memmove m 1 0 2).2 2 = 1 := by decide
  refine ⟨hulib, hkernel, fun h => ?_⟩
  rw [h, hkernel] at hulib
  exact absurd hulib (by decide)

end Xv6.Str

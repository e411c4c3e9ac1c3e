import Mathlib.Tactic.Common
import Mathlib.Tactic.IntervalCases
import Mathlib.Data.List.GetD

/-! # Byte-addressed stores

A *store* is a function from addresses to bytes. Numbers are kept in it least significant byte
first: `le16` and `le32` read them, `bytes16` and `bytes32` spell them out, and `put` overwrites the
bytes from an address on by a list of bytes. Blocks of a fixed length are the stores `Bytes n`. -/

namespace Xv6.Lib

/-- Overwrite the bytes at `a, a + 1, …` by those of a list. -/
def put (f : Nat → UInt8) (a : Nat) (bs : List UInt8) : Nat → UInt8 :=
  fun i => if a ≤ i then bs.getD (i - a) (f i) else f i

/-- The list of the `n` bytes from address `a` on. -/
def slice (f : Nat → UInt8) (a n : Nat) : List UInt8 := (List.range n).map fun i => f (a + i)

/-- The 16-bit number at an address. -/
def le16 (f : Nat → UInt8) (a : Nat) : Nat := (f a).toNat + 256 * (f (a + 1)).toNat

/-- The 32-bit number at an address. -/
def le32 (f : Nat → UInt8) (a : Nat) : Nat := le16 f a + 65536 * le16 f (a + 2)

/-- The two bytes of a 16-bit number. -/
def bytes16 (v : Nat) : List UInt8 := [UInt8.ofNat v, UInt8.ofNat (v / 256)]

/-- The four bytes of a 32-bit number. -/
def bytes32 (v : Nat) : List UInt8 := bytes16 v ++ bytes16 (v / 65536)

section Put

variable (f : Nat → UInt8) (a : Nat) (bs : List UInt8)

/-- Bytes below the written range are kept. -/
theorem put_of_lt {i : Nat} (h : i < a) : put f a bs i = f i := by
  rw [put, if_neg (by omega)]

/-- Bytes from the end of the written range on are kept. -/
theorem put_of_ge {i : Nat} (h : a + bs.length ≤ i) : put f a bs i = f i := by
  rw [put, if_pos (by omega), List.getD_eq_default _ _ (by omega)]

/-- A byte of the written range is the one written there. -/
theorem put_of_mem {i : Nat} (h : i < bs.length) (d : UInt8) :
    put f a bs (a + i) = bs.getD i d := by
  rw [put, if_pos (by omega), Nat.add_sub_cancel_left, List.getD_eq_getElem _ _ h,
    List.getD_eq_getElem _ _ h]

/-- Bytes outside the written range are kept. -/
theorem put_of_notMem {i : Nat} (h : i < a ∨ a + bs.length ≤ i) : put f a bs i = f i := by
  rcases h with h | h
  · exact put_of_lt f a bs h
  · exact put_of_ge f a bs h

end Put

variable (f : Nat → UInt8)

@[simp] theorem length_slice (a n : Nat) : (slice f a n).length = n := by
  simp [slice]

@[simp] theorem length_bytes16 (v : Nat) : (bytes16 v).length = 2 := rfl

@[simp] theorem length_bytes32 (v : Nat) : (bytes32 v).length = 4 := rfl

/-- A 16-bit number depends only on its two bytes. -/
theorem le16_congr {f g : Nat → UInt8} {a b : Nat} (h : ∀ i < 2, f (a + i) = g (b + i)) :
    le16 f a = le16 g b := by
  have h0 := h 0 (by omega)
  have h1 := h 1 (by omega)
  rw [Nat.add_zero, Nat.add_zero] at h0
  rw [le16, le16, h0, h1]

/-- A 32-bit number depends only on its four bytes. -/
theorem le32_congr {f g : Nat → UInt8} {a b : Nat} (h : ∀ i < 4, f (a + i) = g (b + i)) :
    le32 f a = le32 g b := by
  have hlo : le16 f a = le16 g b := le16_congr fun i hi => h i (by omega)
  have hhi : le16 f (a + 2) = le16 g (b + 2) := le16_congr fun i hi => by
    have := h (2 + i) (by omega)
    rwa [← Nat.add_assoc, ← Nat.add_assoc] at this
  rw [le32, le32, hlo, hhi]

/-- A 16-bit number is below `2 ^ 16`. -/
theorem le16_lt (a : Nat) : le16 f a < 65536 := by
  have h0 := (f a).toNat_lt
  have h1 := (f (a + 1)).toNat_lt
  rw [le16]
  omega

/-- A 32-bit number is below `2 ^ 32`. -/
theorem le32_lt (a : Nat) : le32 f a < 4294967296 := by
  have h0 := le16_lt f a
  have h1 := le16_lt f (a + 2)
  rw [le32]
  omega

/-- Reading back a 32-bit number that was just written. -/
theorem le32_put_self (a v : Nat) : le32 (put f a (bytes32 v)) a = v % 4294967296 := by
  have h (i : Nat) (hi : i < 4) := put_of_mem f a (bytes32 v) (i := i) (by simpa using hi) 0
  have h0 := h 0 (by omega)
  rw [Nat.add_zero] at h0
  rw [le32, le16, le16, h0, h 1 (by omega), h 2 (by omega), show a + 2 + 1 = a + 3 from rfl,
    h 3 (by omega)]
  simp only [bytes32, bytes16, List.cons_append, List.nil_append, List.getD_cons_zero,
    List.getD_cons_succ, UInt8.toNat_ofNat']
  omega

/-- A 32-bit number is kept by a write outside its four bytes. -/
theorem le32_put_of_disjoint (a : Nat) (bs : List UInt8) {b : Nat}
    (h : b + 4 ≤ a ∨ a + bs.length ≤ b) : le32 (put f a bs) b = le32 f b :=
  le32_congr fun i hi => put_of_notMem f a bs (by omega)

/-! ## Numbers in lists of bytes -/

/-- A 16-bit number inside a range just written. -/
theorem le16_put (a : Nat) (bs : List UInt8) {k : Nat} (h : k + 2 ≤ bs.length) :
    le16 (put f a bs) (a + k) = le16 (bs.getD · 0) k :=
  le16_congr fun i hi => by
    rw [Nat.add_assoc, put_of_mem f a bs (by omega) 0]

/-- A 32-bit number inside a range just written. -/
theorem le32_put (a : Nat) (bs : List UInt8) {k : Nat} (h : k + 4 ≤ bs.length) :
    le32 (put f a bs) (a + k) = le32 (bs.getD · 0) k :=
  le32_congr fun i hi => by
    rw [Nat.add_assoc, put_of_mem f a bs (by omega) 0]

/-- A 16-bit number at the front of a list of bytes. -/
theorem le16_bytes16_append (v : Nat) (bs : List UInt8) :
    le16 ((bytes16 v ++ bs).getD · 0) 0 = v % 65536 := by
  simp only [le16, bytes16, List.cons_append, List.getD_cons_zero, List.getD_cons_succ,
    UInt8.toNat_ofNat']
  omega

/-- A 32-bit number at the front of a list of bytes. -/
theorem le32_bytes32_append (v : Nat) (bs : List UInt8) :
    le32 ((bytes32 v ++ bs).getD · 0) 0 = v % 4294967296 := by
  simp only [le32, le16, bytes32, bytes16, List.cons_append, List.nil_append, List.getD_cons_zero,
    List.getD_cons_succ, UInt8.toNat_ofNat', Nat.zero_add, Nat.reduceAdd]
  omega

/-- A 32-bit number after the first part of a list of bytes. -/
theorem le32_append_right (as bs : List UInt8) (k : Nat) :
    le32 ((as ++ bs).getD · 0) (as.length + k) = le32 (bs.getD · 0) k :=
  le32_congr fun i _ => by
    rw [Nat.add_assoc, List.getD_append_right _ _ _ _ (by omega), Nat.add_sub_cancel_left]

/-- A 32-bit number in a list of such numbers. -/
theorem le32_flatMap_bytes32 {α : Type*} (l : List α) (g : α → Nat) {k : Nat} (hk : k < l.length) :
    le32 ((l.flatMap fun x => bytes32 (g x)).getD · 0) (4 * k) = g l[k] % 4294967296 := by
  induction l generalizing k with
  | nil => simp at hk
  | cons x l ih =>
      rw [List.flatMap_cons]
      cases k with
      | zero => exact le32_bytes32_append _ _
      | succ k =>
          have hlen : 4 * (k + 1) = (bytes32 (g x)).length + 4 * k := by
            rw [length_bytes32]; omega
          rw [hlen, le32_append_right, ih (by simpa using hk), List.getElem_cons_succ]

/-! ## Blocks of a fixed length -/

/-- A block of `n` bytes. -/
def Bytes (n : Nat) : Type := Fin n → UInt8

namespace Bytes

variable {n : Nat}

/-- The byte at an offset, zero past the end of the block. -/
def byte (b : Bytes n) (i : Nat) : UInt8 := if h : i < n then b ⟨i, h⟩ else 0

/-- The block of the first `n` bytes of a store. -/
def ofFn (f : Nat → UInt8) : Bytes n := fun i => f i

/-- The block of zero bytes. -/
def zero : Bytes n := fun _ => 0

/-- Overwrite the bytes of a block from an offset on. -/
def blit (b : Bytes n) (off : Nat) (bs : List UInt8) : Bytes n := ofFn (put b.byte off bs)

theorem byte_ofFn {i : Nat} (h : i < n) : (ofFn f : Bytes n).byte i = f i := by
  rw [byte, dif_pos h, ofFn]

theorem byte_of_ge (b : Bytes n) {i : Nat} (h : n ≤ i) : b.byte i = 0 := by
  rw [byte, dif_neg (by omega)]

@[simp] theorem byte_zero (i : Nat) : (zero : Bytes n).byte i = 0 := by
  rw [byte]
  split <;> rfl

/-- The bytes of a block after a write that stays inside it. -/
theorem byte_blit (b : Bytes n) {off : Nat} {bs : List UInt8} (h : off + bs.length ≤ n) (i : Nat) :
    (b.blit off bs).byte i = put b.byte off bs i := by
  by_cases hi : i < n
  · rw [blit, byte_ofFn _ hi]
  · rw [byte_of_ge _ (by omega), put_of_ge _ _ _ (by omega), byte_of_ge _ (by omega)]

end Bytes

end Xv6.Lib

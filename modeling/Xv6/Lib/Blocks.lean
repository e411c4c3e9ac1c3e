import Mathlib.Data.List.Basic
import Mathlib.Data.List.Count
import Mathlib.Algebra.Order.Group.Nat

/-! # Blocks of memory

Blocks of consecutive units in a linear memory. How often a list of blocks covers an address says at
once whether blocks are disjoint and what they cover; `merge` puts a block before others in the
order of addresses and makes one block of two that touch. -/

namespace Xv6.Lib

/-- **A block**: its address and its size in units. -/
structure Chunk where
  addr : Nat
  size : Nat
  deriving DecidableEq

namespace Chunk

variable (u : Nat)

/-- The address after a block of units of `u` bytes. -/
def stop (b : Chunk) : Nat := b.addr + u * b.size

/-- An address lies in a block. -/
def Has (b : Chunk) (x : Nat) : Prop := b.addr ≤ x ∧ x < b.stop u

instance (b : Chunk) (x : Nat) : Decidable (b.Has u x) := inferInstanceAs (Decidable (_ ∧ _))

/-- A block lies before another one and does not touch it. -/
def Before (b c : Chunk) : Prop := b.stop u < c.addr

/-- Two blocks have no address in common. -/
def Disjoint (b c : Chunk) : Prop := ∀ x, ¬ (b.Has u x ∧ c.Has u x)

/-- How many blocks of a list an address lies in. -/
def cover (l : List Chunk) (x : Nat) : Nat := l.countP fun b => decide (b.Has u x)

variable {u}

theorem addr_le_stop (b : Chunk) : b.addr ≤ b.stop u := Nat.le_add_right _ _

theorem has_addr (hu : 0 < u) {b : Chunk} (h : 0 < b.size) : b.Has u b.addr :=
  ⟨le_rfl, Nat.lt_add_of_pos_right (Nat.mul_pos hu h)⟩

@[simp] theorem cover_nil (x : Nat) : cover u [] x = 0 := rfl

theorem cover_cons (b : Chunk) (l : List Chunk) (x : Nat) :
    cover u (b :: l) x = cover u l x + if b.Has u x then 1 else 0 := by
  simp [cover, List.countP_cons]

theorem cover_append (l m : List Chunk) (x : Nat) :
    cover u (l ++ m) x = cover u l x + cover u m x :=
  List.countP_append

variable {l : List Chunk}

theorem cover_pos {x : Nat} : 0 < cover u l x ↔ ∃ b ∈ l, b.Has u x := by
  simp [cover, List.countP_pos_iff]

/-- A block taken out of a list. -/
theorem cover_erase {b : Chunk} (h : b ∈ l) (x : Nat) :
    cover u l x = cover u (l.erase b) x + if b.Has u x then 1 else 0 := by
  rw [← cover_cons]
  exact (List.perm_cons_erase h).countP_eq _

/-- **A block falls into two.** -/
theorem cover_split (a m n x : Nat) :
    cover u [⟨a, m + n⟩] x = cover u [⟨a, m⟩] x + cover u [⟨a + u * m, n⟩] x := by
  have hboth : (⟨a, m + n⟩ : Chunk).Has u x ↔
      (⟨a, m⟩ : Chunk).Has u x ∨ (⟨a + u * m, n⟩ : Chunk).Has u x := by
    simp only [Has, stop, Nat.mul_add]
    omega
  have hone : (⟨a, m⟩ : Chunk).Has u x → ¬ (⟨a + u * m, n⟩ : Chunk).Has u x := by
    simp only [Has, stop]
    omega
  simp only [cover_cons, cover_nil, hboth]
  by_cases hleft : (⟨a, m⟩ : Chunk).Has u x
  · rw [if_pos (.inl hleft), if_pos hleft, if_neg (hone hleft)]
  · rw [if_neg hleft, Nat.zero_add, Nat.zero_add, Nat.zero_add]
    by_cases hright : (⟨a + u * m, n⟩ : Chunk).Has u x
    · rw [if_pos (.inr hright), if_pos hright]
    · rw [if_neg (not_or.mpr ⟨hleft, hright⟩), if_neg hright]

/-- **Blocks that cover no address twice are disjoint.** -/
theorem pairwise_disjoint (h : ∀ x, cover u l x ≤ 1) : l.Pairwise (Disjoint u) := by
  induction l with
  | nil => exact List.Pairwise.nil
  | cons b l ih =>
      refine List.pairwise_cons.mpr ⟨fun c hc x hx => ?_, ih fun x => ?_⟩
      · have hpos : 0 < cover u l x := cover_pos.mpr ⟨c, hc, hx.2⟩
        have hle := h x
        rw [cover_cons, if_pos hx.1] at hle
        omega
      · have hle := h x
        rw [cover_cons] at hle
        omega

theorem Before.trans {b c d : Chunk} (h : b.Before u c) (h' : c.Before u d) : b.Before u d := by
  have hc : c.addr ≤ c.stop u := c.addr_le_stop
  unfold Before at h h' ⊢
  omega

theorem Before.addr_lt {b c : Chunk} (h : b.Before u c) : b.addr < c.addr :=
  lt_of_le_of_lt b.addr_le_stop h

/-! ## Putting a block before others -/

variable (u)

/-- **Put a block before others**, as one with the first of them if they touch. -/
def merge (b : Chunk) : List Chunk → List Chunk
  | [] => [b]
  | c :: l => if b.stop u = c.addr then ⟨b.addr, b.size + c.size⟩ :: l else b :: c :: l

variable {u}

theorem merge_eq_cons (b : Chunk) (l : List Chunk) :
    ∃ n m, b.merge u l = ⟨b.addr, n⟩ :: m ∧ (∀ c ∈ m, c ∈ l) ∧ b.size ≤ n := by
  cases l with
  | nil => exact ⟨b.size, [], rfl, fun c hc => hc, le_rfl⟩
  | cons c l =>
      rw [merge]
      split
      · exact ⟨_, l, rfl, fun d hd => .tail _ hd, Nat.le_add_right _ _⟩
      · exact ⟨_, c :: l, rfl, fun d hd => hd, le_rfl⟩

/-- A merged list has the addresses of some of the blocks. -/
theorem addr_of_mem_merge {b d : Chunk} (h : d ∈ b.merge u l) : d.addr = b.addr ∨ d ∈ l := by
  obtain ⟨n, m, heq, hsub, -⟩ := merge_eq_cons (u := u) b l
  rw [heq] at h
  rcases List.mem_cons.mp h with rfl | hd
  · exact .inl rfl
  · exact .inr (hsub d hd)

theorem size_pos_of_mem_merge {b d : Chunk} (h : d ∈ b.merge u l) (hb : 0 < b.size)
    (hl : ∀ c ∈ l, 0 < c.size) : 0 < d.size := by
  obtain ⟨n, m, heq, hsub, hle⟩ := merge_eq_cons (u := u) b l
  rw [heq] at h
  rcases List.mem_cons.mp h with rfl | hd
  · exact lt_of_lt_of_le hb hle
  · exact hl d (hsub d hd)

theorem length_merge_le (b : Chunk) (l : List Chunk) : (b.merge u l).length ≤ l.length + 1 := by
  cases l with
  | nil => exact le_rfl
  | cons c l =>
      rw [merge]
      split
      · exact Nat.le_succ _
      · exact le_rfl

theorem merge_of_ne {b c : Chunk} (h : b.stop u ≠ c.addr) : b.merge u (c :: l) = b :: c :: l := by
  rw [merge, if_neg h]

/-- **Merging covers the same addresses.** -/
theorem cover_merge (b : Chunk) (l : List Chunk) (x : Nat) :
    cover u (b.merge u l) x = cover u (b :: l) x := by
  cases l with
  | nil => rfl
  | cons c l =>
      rw [merge]
      split
      · rename_i heq
        have hsplit := cover_split (u := u) b.addr b.size c.size x
        rw [show b.addr + u * b.size = c.addr from heq,
          show (⟨b.addr, b.size⟩ : Chunk) = b from rfl,
          show (⟨c.addr, c.size⟩ : Chunk) = c from rfl] at hsplit
        simp only [cover_cons, cover_nil] at hsplit ⊢
        omega
      · rfl

/-- **Merging keeps blocks in order and apart.** -/
theorem pairwise_merge {b : Chunk} (hb : ∀ c ∈ l, b.stop u ≤ c.addr) (h : l.Pairwise (Before u)) :
    (b.merge u l).Pairwise (Before u) := by
  cases l with
  | nil => exact List.pairwise_singleton _ _
  | cons c l =>
      obtain ⟨hc, hl⟩ := List.pairwise_cons.mp h
      rw [merge]
      split
      · rename_i heq
        refine List.pairwise_cons.mpr ⟨fun d hd => ?_, hl⟩
        have hstop : (⟨b.addr, b.size + c.size⟩ : Chunk).stop u = c.stop u := by
          unfold stop at heq ⊢
          rw [Nat.mul_add, ← heq, Nat.add_assoc]
        show _ < _
        rw [hstop]
        exact hc d hd
      · rename_i hne
        have hlt : b.Before u c := lt_of_le_of_ne (hb c List.mem_cons_self) hne
        refine List.pairwise_cons.mpr ⟨fun d hd => ?_, h⟩
        rcases List.mem_cons.mp hd with rfl | hd'
        · exact hlt
        · exact hlt.trans (hc d hd')

end Chunk

end Xv6.Lib

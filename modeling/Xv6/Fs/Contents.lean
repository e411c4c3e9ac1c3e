import Xv6.Fs.Map

/-! # The contents of an inode

The bytes of a file as its blocks hold them, and what a write to one of the blocks or a new block at
the end does to them. -/

namespace Xv6.Fs

open Lib

/-- **The layout of a file**: the inode has exactly `n` blocks, and they hold the bytes `c`. -/
structure Holds (disk : Disk) (d : Dinode) (n : Nat) (c : Nat → UInt8) : Prop where
  /-- There are no holes, and nothing behind the last block. -/
  block : ∀ k, blockNo disk d k ≠ 0 ↔ k < n
  /-- The indirect block is there when it is needed. -/
  indirect : d.indirect ≠ 0 ↔ NDIRECT < n
  byte : ∀ k < n, ∀ o < BSIZE, (disk (blockNo disk d k)).byte o = c (BSIZE * k + o)

namespace Holds

variable {disk disk' : Disk} {d d' : Dinode} {n : Nat} {c : Nat → UInt8}

theorem le_max (h : Holds disk d n c) : n ≤ MAXFILE := by
  by_contra hn
  have hlt : MAXFILE < n := Nat.lt_of_not_le hn
  exact (h.block MAXFILE).mpr hlt (blockNo_of_max_le le_rfl)

/-- An inode without blocks. -/
theorem blank (type : Int16) (c : Nat → UInt8) : Holds disk (Dinode.blank type) 0 c := by
  have hno (k : Nat) : blockNo disk (Dinode.blank type) k = 0 := by
    by_cases hk : k < NDIRECT
    · rw [blockNo_of_lt hk, Dinode.direct, dif_pos hk]
      rfl
    · exact blockNo_of_indirect_eq (Nat.le_of_not_lt hk) rfl
  refine ⟨fun k => ?_, ⟨fun h => absurd rfl h, fun h => absurd h (by omega)⟩, fun k hk => ?_⟩
  · exact ⟨fun h => absurd (hno k) h, fun h => absurd h (by omega)⟩
  · exact absurd hk (by omega)

/-- Only the blocks of the inode matter. -/
theorem congr (h : Holds disk d n c) (hsame : ∀ pl, d.stored disk pl ≠ 0 →
    disk' (d.stored disk pl) = disk (d.stored disk pl)) : Holds disk' d n c := by
  have hno : ∀ k, blockNo disk' d k = blockNo disk d k := blockNo_congr (hsame .indirect)
  refine ⟨fun k => by rw [hno]; exact h.block k, h.indirect, fun k hk o ho => ?_⟩
  rw [hno]
  have hblock := hsame (.block k) ((h.block k).mpr hk)
  rw [show disk' (blockNo disk d k) = disk (blockNo disk d k) from hblock]
  exact h.byte k hk o ho

/-- Only the addresses of the inode matter. -/
theorem congr_addrs (h : Holds disk d n c) (haddrs : d'.addrs = d.addrs) : Holds disk d' n c := by
  have hdirect (k : Nat) : d'.direct k = d.direct k := by
    unfold Dinode.direct
    rw [haddrs]
  have hindirect : d'.indirect = d.indirect := by
    unfold Dinode.indirect
    rw [haddrs]
  have hno (k : Nat) : blockNo disk d' k = blockNo disk d k := by
    unfold blockNo
    rw [hdirect, hindirect]
  refine ⟨fun k => by rw [hno]; exact h.block k, by rw [hindirect]; exact h.indirect, ?_⟩
  intro k hk o ho
  rw [hno]
  exact h.byte k hk o ho

/-- **A write** to the `k`-th block. -/
theorem write (h : Holds disk d n c) (huniq : Unique (d.stored disk)) {k : Nat} (hk : k < n)
    {b : Block} {c' : Nat → UInt8} (hnew : ∀ o < BSIZE, b.byte o = c' (BSIZE * k + o))
    (hold : ∀ k' < n, k' ≠ k → ∀ o < BSIZE, c' (BSIZE * k' + o) = c (BSIZE * k' + o)) :
    Holds (Function.update disk (blockNo disk d k) b) d n c' := by
  have hkne : d.stored disk (.block k) ≠ 0 := (h.block k).mpr hk
  have hindirect : d.indirect ≠ 0 → d.indirect ≠ blockNo disk d k := fun _ heq =>
    Place.noConfusion (huniq (.block k) .indirect hkne heq.symm)
  have hno (k' : Nat) :
      blockNo (Function.update disk (blockNo disk d k) b) d k' = blockNo disk d k' :=
    blockNo_congr (fun hne => Function.update_of_ne (hindirect hne) _ _) k'
  refine ⟨fun k' => by rw [hno]; exact h.block k', h.indirect, fun k' hk' o ho => ?_⟩
  rw [hno]
  by_cases heq : k' = k
  · subst heq
    rw [Function.update_self]
    exact hnew o ho
  · have hne : blockNo disk d k' ≠ blockNo disk d k := by
      intro hsame
      have hpl := huniq (.block k') (.block k) ((h.block k').mpr hk') hsame
      cases hpl
      exact heq rfl
    rw [Function.update_of_ne hne, h.byte k' hk' o ho, hold k' hk' heq o ho]

/-- **A new block** at the end, with the bytes `c` already in it. -/
theorem grow (h : Holds disk d n c) {addr : Nat}
    (hno : ∀ k, blockNo disk' d' k = if k = n then addr else blockNo disk d k) (haddr : addr ≠ 0)
    (hindirect : d'.indirect ≠ 0 ↔ NDIRECT < n + 1)
    (hnew : ∀ o < BSIZE, (disk' addr).byte o = c (BSIZE * n + o))
    (hold : ∀ k < n, disk' (blockNo disk d k) = disk (blockNo disk d k)) :
    Holds disk' d' (n + 1) c := by
  refine ⟨fun k => ?_, hindirect, fun k hk o ho => ?_⟩
  · rw [hno]
    by_cases hk : k = n
    · rw [if_pos hk]
      exact ⟨fun _ => by omega, fun _ => haddr⟩
    · rw [if_neg hk, h.block k]
      omega
  · rw [hno]
    by_cases hkn : k = n
    · rw [if_pos hkn, hkn]
      exact hnew o ho
    · rw [if_neg hkn, hold k (by omega)]
      exact h.byte k (by omega) o ho

end Holds

end Xv6.Fs

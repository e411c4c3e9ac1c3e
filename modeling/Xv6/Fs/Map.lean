import Xv6.Fs.Layout
import Xv6.Lib.Cells

/-! # The blocks of an inode

An inode lists its blocks in twelve direct addresses and, from the thirteenth on, in the entries of
an indirect block. Here the two are one map from block indices to block numbers, and what storing a
new number does to it is said once for `mkfs`, which writes images, and for the kernel. -/

namespace Xv6.Fs

open Lib

open Function (update update_of_ne update_self)

/-- The contents of the blocks of a disk. -/
abbrev Disk : Type := Nat → Block

/-! ## Addresses in an indirect block -/

theorem byte_putAddr (b : Block) {j : Nat} (hj : j < NINDIRECT) (addr i : Nat) :
    (putAddr b j addr).byte i = put b.byte (4 * j) (bytes32 addr) i := by
  apply Bytes.byte_blit
  simp only [NINDIRECT] at hj
  rw [length_bytes32, BSIZE]
  omega

/-- The address just written is read back. -/
theorem addrAt_putAddr_self (b : Block) {j : Nat} (hj : j < NINDIRECT) {addr : Nat}
    (haddr : addr < 4294967296) : addrAt (putAddr b j addr) j = addr := by
  have hbyte : (putAddr b j addr).byte = put b.byte (4 * j) (bytes32 addr) :=
    funext (byte_putAddr b hj addr)
  rw [addrAt, hbyte, le32_put_self, Nat.mod_eq_of_lt haddr]

/-- The other addresses of the block are kept. -/
theorem addrAt_putAddr_of_ne (b : Block) {j k : Nat} (hj : j < NINDIRECT) (hkj : k ≠ j)
    (addr : Nat) : addrAt (putAddr b j addr) k = addrAt b k := by
  have hbyte : (putAddr b j addr).byte = put b.byte (4 * j) (bytes32 addr) :=
    funext (byte_putAddr b hj addr)
  rw [addrAt, hbyte, le32_put_of_disjoint _ _ _ (by rw [length_bytes32]; omega)]
  rfl

/-- A zero block lists no addresses. -/
@[simp] theorem addrAt_zero (j : Nat) : addrAt Bytes.zero j = 0 := by
  simp [addrAt, le32, le16]

/-- There is nothing behind the last entry. -/
theorem addrAt_of_ge (b : Block) {j : Nat} (hj : NINDIRECT ≤ j) : addrAt b j = 0 := by
  have hbyte (i : Nat) : b.byte (4 * j + i) = 0 := by
    apply Bytes.byte_of_ge
    simp only [NINDIRECT] at hj
    rw [BSIZE]
    omega
  have hzero : le32 b.byte (4 * j) = le32 (fun _ => 0) (4 * j) := le32_congr fun i _ => hbyte i
  rw [addrAt, hzero]
  rfl

/-! ## Addresses in an inode -/

namespace Dinode

theorem direct_of_ge (d : Dinode) {k : Nat} (hk : NDIRECT ≤ k) : d.direct k = 0 :=
  dif_neg (Nat.not_lt.mpr hk)

/-- A direct address just assigned, and the others. -/
theorem direct_setAddr (d : Dinode) {k : Nat} (hk : k < NDIRECT) {addr : Nat}
    (haddr : addr < 4294967296) (k' : Nat) :
    (d.setAddr ⟨k, Nat.lt_succ_of_lt hk⟩ addr).direct k' = if k' = k then addr else d.direct k' := by
  by_cases hk' : k' < NDIRECT
  · rw [direct, dif_pos hk', direct, dif_pos hk', setAddr]
    by_cases heq : k' = k
    · subst heq
      rw [if_pos rfl]
      simp only [update_self, UInt32.toNat_ofNat']
      exact Nat.mod_eq_of_lt haddr
    · rw [if_neg heq]
      have hne : (⟨k', Nat.lt_succ_of_lt hk'⟩ : Fin 13) ≠ ⟨k, Nat.lt_succ_of_lt hk⟩ :=
        fun h => heq (Fin.mk.inj h)
      simp only [update_of_ne hne]
  · have hne : k' ≠ k := fun h => hk' (h ▸ hk)
    rw [if_neg hne, direct_of_ge _ (Nat.le_of_not_lt hk'), direct_of_ge _ (Nat.le_of_not_lt hk')]

/-- The direct addresses do not include that of the indirect block. -/
theorem indirect_setAddr_of_lt (d : Dinode) {k : Nat} (hk : k < NDIRECT) (addr : Nat) :
    (d.setAddr ⟨k, Nat.lt_succ_of_lt hk⟩ addr).indirect = d.indirect := by
  have hne : (12 : Fin 13) ≠ ⟨k, Nat.lt_succ_of_lt hk⟩ := by
    intro h
    have hval := congrArg Fin.val h
    simp only [NDIRECT] at hk
    exact absurd hval (by show (12 : Nat) ≠ k; omega)
  rw [indirect, setAddr]
  simp only [update_of_ne hne]
  rfl

theorem indirect_setAddr (d : Dinode) {addr : Nat} (haddr : addr < 4294967296) :
    (d.setAddr 12 addr).indirect = addr := by
  rw [indirect, setAddr]
  simp only [update_self, UInt32.toNat_ofNat']
  exact Nat.mod_eq_of_lt haddr

theorem direct_setAddr_indirect (d : Dinode) (addr k : Nat) :
    (d.setAddr 12 addr).direct k = d.direct k := by
  by_cases hk : k < NDIRECT
  · have hne : (⟨k, Nat.lt_succ_of_lt hk⟩ : Fin 13) ≠ 12 := by
      intro h
      have hval := congrArg Fin.val h
      simp only [NDIRECT] at hk
      exact absurd hval (by show k ≠ 12; omega)
    rw [direct, dif_pos hk, direct, dif_pos hk, setAddr]
    simp only [update_of_ne hne]
  · rw [direct_of_ge _ (Nat.le_of_not_lt hk), direct_of_ge _ (Nat.le_of_not_lt hk)]

end Dinode

/-! ## The block map -/

/-- **The number of the `k`-th block of an inode**, zero if it has none. -/
def blockNo (disk : Disk) (d : Dinode) (k : Nat) : Nat :=
  if k < NDIRECT then d.direct k
  else if d.indirect = 0 then 0
  else addrAt (disk d.indirect) (k - NDIRECT)

/-- Where an inode stores block numbers: for its `k`-th block, in `addrs` or in the indirect block,
and for the indirect block itself. -/
inductive Place
  | block (k : Nat)
  | indirect
  deriving DecidableEq

/-- The number that an inode stores at a place. -/
def Dinode.stored (disk : Disk) (d : Dinode) : Place → Nat
  | .block k => blockNo disk d k
  | .indirect => d.indirect

/-- The numbers stored by all inodes of a table. -/
def stored (disk : Disk) (D : Nat → Dinode) (x : Nat × Place) : Nat := (D x.1).stored disk x.2

section BlockNo

variable {disk disk' : Disk} {d : Dinode}

variable {k : Nat}

theorem blockNo_of_lt (hk : k < NDIRECT) : blockNo disk d k = d.direct k := if_pos hk

theorem blockNo_of_ge (hk : NDIRECT ≤ k) (hd : d.indirect ≠ 0) :
    blockNo disk d k = addrAt (disk d.indirect) (k - NDIRECT) := by
  rw [blockNo, if_neg (Nat.not_lt.mpr hk), if_neg hd]

theorem blockNo_of_indirect_eq (hk : NDIRECT ≤ k) (hd : d.indirect = 0) : blockNo disk d k = 0 := by
  rw [blockNo, if_neg (Nat.not_lt.mpr hk), if_pos hd]

/-- No inode has blocks past the largest file. -/
theorem blockNo_of_max_le (hk : MAXFILE ≤ k) : blockNo disk d k = 0 := by
  have hdirect : NDIRECT ≤ k := Nat.le_trans (Nat.le_add_right _ _) hk
  by_cases hd : d.indirect = 0
  · exact blockNo_of_indirect_eq hdirect hd
  · rw [blockNo_of_ge hdirect hd]
    apply addrAt_of_ge
    simp only [MAXFILE] at hk
    omega

/-- The block map depends on the disk only through the indirect block. -/
theorem blockNo_congr (h : d.indirect ≠ 0 → disk' d.indirect = disk d.indirect) (k : Nat) :
    blockNo disk' d k = blockNo disk d k := by
  unfold blockNo
  by_cases hd : d.indirect = 0
  · rw [if_pos hd, if_pos hd]
  · rw [h hd]

theorem Dinode.stored_congr (h : d.indirect ≠ 0 → disk' d.indirect = disk d.indirect) :
    d.stored disk' = d.stored disk := by
  funext pl
  cases pl with
  | block k => exact blockNo_congr h k
  | indirect => rfl

/-- Assigning a direct address. -/
theorem Dinode.stored_setAddr (hk : k < NDIRECT) {addr : Nat} (haddr : addr < 4294967296) :
    (d.setAddr ⟨k, Nat.lt_succ_of_lt hk⟩ addr).stored disk =
      update (d.stored disk) (.block k) addr := by
  funext pl
  cases pl with
  | indirect =>
      rw [update_of_ne (by intro h; cases h)]
      exact d.indirect_setAddr_of_lt hk addr
  | block k' =>
      by_cases hk' : k' < NDIRECT
      · have hdir := d.direct_setAddr hk haddr k'
        by_cases heq : k' = k
        · subst heq
          rw [update_self]
          show blockNo _ _ _ = _
          rw [blockNo_of_lt hk, hdir, if_pos rfl]
        · rw [update_of_ne (by intro h; cases h; exact heq rfl)]
          show blockNo _ _ _ = blockNo _ _ _
          rw [blockNo_of_lt hk', blockNo_of_lt hk', hdir, if_neg heq]
      · rw [update_of_ne (by intro h; cases h; exact hk' hk)]
        show blockNo _ _ _ = blockNo _ _ _
        unfold blockNo
        rw [if_neg hk', if_neg hk', d.indirect_setAddr_of_lt hk addr]

/-- Assigning the address of a zero block as that of the indirect block. -/
theorem Dinode.stored_setAddr_indirect (hd : d.indirect = 0) {addr : Nat}
    (haddr : addr < 4294967296) (hzero : disk addr = Bytes.zero) :
    (d.setAddr 12 addr).stored disk = update (d.stored disk) .indirect addr := by
  funext pl
  cases pl with
  | indirect =>
      rw [update_self]
      exact d.indirect_setAddr haddr
  | block k =>
      rw [update_of_ne (by intro h; cases h)]
      show blockNo _ _ _ = blockNo _ _ _
      by_cases hk : k < NDIRECT
      · rw [blockNo_of_lt hk, blockNo_of_lt hk, d.direct_setAddr_indirect]
      · rw [blockNo_of_indirect_eq (Nat.le_of_not_lt hk) hd]
        by_cases hnew : (d.setAddr 12 addr).indirect = 0
        · exact blockNo_of_indirect_eq (Nat.le_of_not_lt hk) hnew
        · rw [blockNo_of_ge (Nat.le_of_not_lt hk) hnew, d.indirect_setAddr haddr, hzero,
            addrAt_zero]

/-- Writing an entry of the indirect block. -/
theorem Dinode.stored_putAddr (hd : d.indirect ≠ 0) (hk : NDIRECT ≤ k) (hmax : k < MAXFILE)
    {addr : Nat} (haddr : addr < 4294967296) :
    d.stored (update disk d.indirect
        (putAddr (disk d.indirect) (k - NDIRECT) addr)) =
      update (d.stored disk) (.block k) addr := by
  have hj : k - NDIRECT < NINDIRECT := by
    simp only [MAXFILE] at hmax
    omega
  funext pl
  cases pl with
  | indirect =>
      rw [update_of_ne (by intro h; cases h)]
      rfl
  | block k' =>
      by_cases heq : k' = k
      · subst heq
        rw [update_self]
        show blockNo _ _ _ = _
        rw [blockNo_of_ge hk hd, update_self, addrAt_putAddr_self _ hj haddr]
      · rw [update_of_ne (by intro h; cases h; exact heq rfl)]
        show blockNo _ _ _ = blockNo _ _ _
        by_cases hk' : k' < NDIRECT
        · rw [blockNo_of_lt hk', blockNo_of_lt hk']
        · rw [blockNo_of_ge (Nat.le_of_not_lt hk') hd, blockNo_of_ge (Nat.le_of_not_lt hk') hd,
            update_self]
          exact addrAt_putAddr_of_ne _ hj (by omega) _

end BlockNo

end Xv6.Fs

import Xv6.Kernel.Param
import Mathlib.Data.Nat.Bitwise

/-! # The on-disk format

The structures of `fs.h` as they lie in a block: the superblock, the eight inodes of an inode block,
the 4096 bits of a bitmap block and the 32 entries of a directory block. Each comes with what a
write of it leaves unchanged, so that the block operations above can treat inodes, bits and block
addresses as separate cells. -/

namespace Xv6.Fs

open Lib

/-! ## Constants of `fs.h` and `stat.h` -/

/-- Direct block addresses of an inode. -/
def NDIRECT : Nat := 12

/-- Block addresses in an indirect block. -/
def NINDIRECT : Nat := 128

/-- Largest number of blocks of a file. -/
def MAXFILE : Nat := NDIRECT + NINDIRECT

/-- Inodes per block. -/
def IPB : Nat := 8

/-- Bitmap bits per block. -/
def BPB : Nat := BSIZE * 8

/-- Length of a name in a directory entry. -/
def DIRSIZ : Nat := 14

/-- `sizeof(struct dirent)`. -/
def DIRENT : Nat := 16

/-- Block containing inode `i`. -/
def IBLOCK (i : Nat) : Nat := i / IPB + 2

/-- Block containing the bit of block `b`. -/
def BBLOCK (b ninodes : Nat) : Nat := b / BPB + ninodes / IPB + 3

/-- Directory. -/
def T_DIR : Int16 := 1

/-- File. -/
def T_FILE : Int16 := 2

/-- Special device. -/
def T_DEV : Int16 := 3

/-! ## The superblock -/

/-- `struct superblock`. -/
structure Superblock where
  /-- Size of the file system image, in blocks. -/
  size : Nat
  /-- Number of data blocks. -/
  nblocks : Nat
  /-- Number of inodes. -/
  ninodes : Nat
  deriving DecidableEq

/-- The superblock kept in a block. -/
def superblockOf (b : Block) : Superblock := ⟨le32 b.byte 0, le32 b.byte 4, le32 b.byte 8⟩

/-! ## Inodes -/

instance neZeroAddrs : NeZero 13 := ⟨by decide⟩

theorem lt_of_direct {k : Nat} (h : k < NDIRECT) : k < 13 := Nat.lt_succ_of_lt h

/-- `struct dinode`, which is also the part of `struct inode` copied from the disk. -/
structure Dinode where
  /-- File type, zero for a free inode. -/
  type : Int16
  /-- Major device number. -/
  major : Int16
  /-- Minor device number. -/
  minor : Int16
  /-- Number of links to the inode in the file system. -/
  nlink : Int16
  /-- Size of the file in bytes. -/
  size : UInt32
  /-- Data block addresses; the last one is that of the indirect block. -/
  addrs : Fin 13 → UInt32

namespace Dinode

/-- A zeroed inode of a given type. -/
def blank (type : Int16) : Dinode := ⟨type, 0, 0, 0, 0, fun _ => 0⟩

/-- The `k`-th direct block address. -/
def direct (d : Dinode) (k : Nat) : Nat :=
  if h : k < NDIRECT then (d.addrs ⟨k, lt_of_direct h⟩).toNat else 0

/-- The address of the indirect block. -/
def indirect (d : Dinode) : Nat := (d.addrs 12).toNat

/-- Replace the `k`-th block address. -/
def setAddr (d : Dinode) (k : Fin 13) (addr : Nat) : Dinode :=
  { d with addrs := Function.update d.addrs k (UInt32.ofNat addr) }

end Dinode

/-- The inode at offset `o` of a store. -/
def dinodeIn (f : Nat → UInt8) (o : Nat) : Dinode :=
  { type := Int16.ofBitVec (BitVec.ofNat 16 (le16 f o))
    major := Int16.ofBitVec (BitVec.ofNat 16 (le16 f (o + 2)))
    minor := Int16.ofBitVec (BitVec.ofNat 16 (le16 f (o + 4)))
    nlink := Int16.ofBitVec (BitVec.ofNat 16 (le16 f (o + 6)))
    size := UInt32.ofNat (le32 f (o + 8))
    addrs := fun k => UInt32.ofNat (le32 f (o + 12 + 4 * k.val)) }

/-- The bytes of the first `n` block addresses. -/
def addrBytes (d : Dinode) : List UInt8 :=
  (List.finRange 13).flatMap fun k => bytes32 (d.addrs k).toNat

/-- The 64 bytes of an inode. -/
def dinodeBytes (d : Dinode) : List UInt8 :=
  bytes16 d.type.toBitVec.toNat ++ (bytes16 d.major.toBitVec.toNat ++
    (bytes16 d.minor.toBitVec.toNat ++ (bytes16 d.nlink.toBitVec.toNat ++
      (bytes32 d.size.toNat ++ addrBytes d))))

/-- `(struct dinode*)bp->data + inum%IPB`. -/
def dinodeAt (b : Block) (inum : Nat) : Dinode := dinodeIn b.byte (64 * (inum % IPB))

/-- A block with the inode of number `inum` overwritten. -/
def putDinode (b : Block) (inum : Nat) (d : Dinode) : Block :=
  b.blit (64 * (inum % IPB)) (dinodeBytes d)

/-! ## Bitmap -/

/-- Whether bit `bi` of a bitmap block is set. -/
def bitAt (b : Block) (bi : Nat) : Bool := (b.byte (bi / 8)).toNat.testBit (bi % 8)

/-- `bp->data[bi/8] |= m`. -/
def setBit (b : Block) (bi : Nat) : Block :=
  b.blit (bi / 8) [UInt8.ofNat ((b.byte (bi / 8)).toNat ||| 2 ^ (bi % 8))]

/-- `bp->data[bi/8] &= ~m`. -/
def clearBit (b : Block) (bi : Nat) : Block :=
  b.blit (bi / 8) [UInt8.ofNat ((b.byte (bi / 8)).toNat &&& (255 ^^^ 2 ^ (bi % 8)))]

/-! ## Indirect blocks -/

/-- `((uint*)bp->data)[j]`. -/
def addrAt (b : Block) (j : Nat) : Nat := le32 b.byte (4 * j)

/-- An indirect block with its `j`-th address overwritten. -/
def putAddr (b : Block) (j addr : Nat) : Block := b.blit (4 * j) (bytes32 addr)

/-! ## Directory entries -/

/-- `struct dirent`; the name without the zero bytes that fill it up. -/
structure Dirent where
  inum : Nat
  name : List UInt8
  deriving DecidableEq

/-- The characters of a string of at most `DIRSIZ` bytes, up to the first zero byte. -/
def nameOf (bs : List UInt8) : List UInt8 := (bs.take DIRSIZ).takeWhile (· ≠ 0)

/-- The directory entry in a list of 16 bytes. -/
def direntOf (bs : List UInt8) : Dirent :=
  ⟨le16 (bs.getD · 0) 0, nameOf (bs.drop 2)⟩

/-- The 16 bytes of a directory entry: `strncpy` fills the name up with zeros, and the number is
kept in 16 bits. -/
def direntBytes (de : Dirent) : List UInt8 :=
  bytes16 de.inum ++ ((nameOf de.name).takeD DIRSIZ 0)

/-- The `k`-th entry of a directory block. -/
def direntAt (b : Block) (k : Nat) : Dirent := direntOf (slice b.byte (DIRENT * k) DIRENT)

/-- `strncmp(p, q, n)` on two strings given by their characters. -/
def strncmp : List UInt8 → List UInt8 → Nat → Int
  | _, _, 0 => 0
  | p, q, n + 1 =>
      if p.headD 0 ≠ 0 ∧ p.headD 0 = q.headD 0 then strncmp p.tail q.tail n
      else ((p.headD 0).toNat : Int) - ((q.headD 0).toNat : Int)

/-- `namecmp`. -/
def namecmp (s t : List UInt8) : Int := strncmp s t DIRSIZ

/-! ## Reading back what was written -/

theorem length_addrBytes (d : Dinode) : (addrBytes d).length = 52 := by
  simp only [addrBytes, List.length_flatMap, length_bytes32]
  rfl

@[simp] theorem length_dinodeBytes (d : Dinode) : (dinodeBytes d).length = 64 := by
  simp [dinodeBytes, length_addrBytes]

/-- A 16-bit field keeps its value on the disk. -/
theorem int16_roundtrip (x : Int16) :
    Int16.ofBitVec (BitVec.ofNat 16 (x.toBitVec.toNat % 65536)) = x := by
  have hlt : x.toBitVec.toNat < 65536 := x.toBitVec.isLt
  rw [Nat.mod_eq_of_lt hlt, BitVec.ofNat_toNat, BitVec.setWidth_eq]
  rfl

/-- A 32-bit field keeps its value on the disk. -/
theorem uint32_roundtrip (x : UInt32) : UInt32.ofNat (x.toNat % 4294967296) = x := by
  rw [Nat.mod_eq_of_lt x.toNat_lt, UInt32.ofNat_toNat]

/-- Where the fields of an inode lie among its bytes. -/
theorem dinodeBytes_fields (d : Dinode) :
    le16 ((dinodeBytes d).getD · 0) 0 = d.type.toBitVec.toNat % 65536 ∧
    le16 ((dinodeBytes d).getD · 0) 2 = d.major.toBitVec.toNat % 65536 ∧
    le16 ((dinodeBytes d).getD · 0) 4 = d.minor.toBitVec.toNat % 65536 ∧
    le16 ((dinodeBytes d).getD · 0) 6 = d.nlink.toBitVec.toNat % 65536 ∧
    le32 ((dinodeBytes d).getD · 0) 8 = d.size.toNat % 4294967296 ∧
    ∀ k : Fin 13, le32 ((dinodeBytes d).getD · 0) (12 + 4 * k.val)
      = (d.addrs k).toNat % 4294967296 := by
  have haddr (k : Fin 13) : le32 ((addrBytes d).getD · 0) (4 * k.val)
      = (d.addrs k).toNat % 4294967296 := by
    have hk : k.val < (List.finRange 13).length := by simp
    have := le32_flatMap_bytes32 (List.finRange 13) (fun k => (d.addrs k).toNat) hk
    rwa [List.getElem_finRange] at this
  -- the tail of the list from each field on
  let tail8 := bytes32 d.size.toNat ++ addrBytes d
  let tail6 := bytes16 d.nlink.toBitVec.toNat ++ tail8
  let tail4 := bytes16 d.minor.toBitVec.toNat ++ tail6
  let tail2 := bytes16 d.major.toBitVec.toNat ++ tail4
  refine ⟨le16_bytes16_append _ tail2, le16_bytes16_append _ tail4, le16_bytes16_append _ tail6,
    le16_bytes16_append _ tail8, le32_bytes32_append _ (addrBytes d), fun k => ?_⟩
  rw [← haddr k]
  -- the addresses follow the four 16-bit fields and the size
  have hskip := le32_append_right (bytes16 d.type.toBitVec.toNat ++ (bytes16 d.major.toBitVec.toNat
    ++ (bytes16 d.minor.toBitVec.toNat ++ (bytes16 d.nlink.toBitVec.toNat
      ++ bytes32 d.size.toNat)))) (addrBytes d) (4 * k.val)
  simp only [List.append_assoc] at hskip
  exact hskip

/-- The inode just written is read back. -/
theorem dinodeIn_put (f : Nat → UInt8) (o : Nat) (d : Dinode) :
    dinodeIn (put f o (dinodeBytes d)) o = d := by
  have h16 {k : Nat} (hk : k + 2 ≤ 64) := le16_put f o (dinodeBytes d) (k := k) (by simpa using hk)
  have h32 {k : Nat} (hk : k + 4 ≤ 64) := le32_put f o (dinodeBytes d) (k := k) (by simpa using hk)
  have htype : le16 (put f o (dinodeBytes d)) o = le16 ((dinodeBytes d).getD · 0) 0 :=
    h16 (k := 0) (by omega)
  obtain ⟨e0, e2, e4, e6, e8, e12⟩ := dinodeBytes_fields d
  have haddrs : (fun k : Fin 13 => UInt32.ofNat (le32 (put f o (dinodeBytes d))
      (o + 12 + 4 * k.val))) = d.addrs := by
    funext k
    rw [Nat.add_assoc, h32 (by omega), e12, uint32_roundtrip]
  rw [dinodeIn, haddrs, htype, h16 (by omega), h16 (by omega), h16 (by omega), h32 (by omega), e0,
    e2, e4, e6, e8, int16_roundtrip, int16_roundtrip, int16_roundtrip, int16_roundtrip,
    uint32_roundtrip]

/-- An inode depends only on its 64 bytes. -/
theorem dinodeIn_congr {f g : Nat → UInt8} {o : Nat} (h : ∀ i < 64, f (o + i) = g (o + i)) :
    dinodeIn f o = dinodeIn g o := by
  have h16 (k : Nat) (hk : k + 2 ≤ 64) : le16 f (o + k) = le16 g (o + k) :=
    le16_congr fun i hi => by rw [Nat.add_assoc]; exact h _ (by omega)
  have h32 (k : Nat) (hk : k + 4 ≤ 64) : le32 f (o + k) = le32 g (o + k) :=
    le32_congr fun i hi => by rw [Nat.add_assoc]; exact h _ (by omega)
  have h0 : le16 f o = le16 g o := h16 0 (by omega)
  have haddrs (k : Fin 13) : le32 f (o + 12 + 4 * k.val) = le32 g (o + 12 + 4 * k.val) := by
    rw [Nat.add_assoc]
    exact h32 _ (by omega)
  simp only [dinodeIn, h0, h16 2 (by omega), h16 4 (by omega), h16 6 (by omega), h32 8 (by omega),
    haddrs]

section Dinodes

variable (b : Block) (i : Nat) (d : Dinode)

theorem dinode_offset_le : 64 * (i % IPB) + 64 ≤ BSIZE := by
  have : i % IPB < 8 := Nat.mod_lt _ (by decide)
  simp only [BSIZE]
  omega

theorem byte_putDinode (j : Nat) :
    (putDinode b i d).byte j = put b.byte (64 * (i % IPB)) (dinodeBytes d) j :=
  Bytes.byte_blit b (by rw [length_dinodeBytes]; exact dinode_offset_le i) j

/-- The inode just written to a block is read back. -/
@[simp] theorem dinodeAt_putDinode_self : dinodeAt (putDinode b i d) i = d := by
  have hbyte : (putDinode b i d).byte = put b.byte (64 * (i % IPB)) (dinodeBytes d) :=
    funext (byte_putDinode b i d)
  rw [dinodeAt, hbyte, dinodeIn_put]

/-- The other inodes of a block are kept. -/
theorem dinodeAt_putDinode_of_ne {j : Nat} (h : j % IPB ≠ i % IPB) :
    dinodeAt (putDinode b i d) j = dinodeAt b j := by
  refine dinodeIn_congr fun k hk => ?_
  rw [byte_putDinode]
  exact put_of_notMem _ _ _ (by rw [length_dinodeBytes]; omega)

end Dinodes

end Xv6.Fs

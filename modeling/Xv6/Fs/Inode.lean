import Xv6.Fs.Act

/-! # Blocks and inodes

The lower half of `fs.c`: the block allocator, the inode cache and the block map of an inode. A
variable of type `struct buf *` is the number of the sector whose buffer is held, and a pointer to a
cached inode is its slot. -/

namespace Xv6.Fs

open Lib

/-! ## Blocks -/

/-- `readsb`. -/
def readsb : FsProg Superblock := do
  let bp ← bread 1
  brelse 1
  pure (superblockOf bp)

/-- `bzero`: zero a block. -/
def bzero (bno : Nat) : FsProg Unit := do
  let _ ← bread bno
  bwrite bno Bytes.zero
  brelse bno

/-- The inner loop of `balloc`: the first clear bit of a bitmap block among `n` from `bi` on. -/
def findClear (bp : Block) : (n bi : Nat) → Option Nat
  | 0, _ => none
  | n + 1, bi => if bitAt bp bi then findClear bp n (bi + 1) else some bi

/-- The outer loop of `balloc`, from block number `b` on. -/
def ballocLoop (sb : Superblock) : (n b : Nat) → FsProg Nat
  | 0, _ => Prog.panic "balloc: out of blocks"
  | n + 1, b =>
      if b < sb.size then do
        let bp ← bread (BBLOCK b sb.ninodes)
        match findClear bp BPB 0 with
        | some bi =>
            -- mark block in use on disk
            bwrite (BBLOCK b sb.ninodes) (setBit bp bi)
            brelse (BBLOCK b sb.ninodes)
            pure (b + bi)
        | none =>
            brelse (BBLOCK b sb.ninodes)
            ballocLoop sb n (b + BPB)
      else Prog.panic "balloc: out of blocks"

/-- `balloc`: allocate a disk block. -/
def balloc : FsProg Nat := do
  let sb ← readsb
  ballocLoop sb (sb.size / BPB + 1) 0

/-- `bfree`: free a disk block. -/
def bfree (b : Nat) : FsProg Unit := do
  bzero b
  let sb ← readsb
  let bp ← bread (BBLOCK b sb.ninodes)
  if bitAt bp (b % BPB) then do
    -- mark block free on disk
    bwrite (BBLOCK b sb.ninodes) (clearBit bp (b % BPB))
    brelse (BBLOCK b sb.ninodes)
  else Prog.panic "freeing free block"

/-! ## Inodes -/

/-- The loop of `ialloc` over `n` inode numbers from `inum` on. -/
def iallocLoop (type : Int16) : (n inum : Nat) → FsProg Slot
  | 0, _ => Prog.panic "ialloc: no inodes"
  | n + 1, inum => do
      let bp ← bread (IBLOCK inum)
      if (dinodeAt bp inum).type = 0 then do
        -- mark it allocated on the disk
        bwrite (IBLOCK inum) (putDinode bp inum (Dinode.blank type))
        brelse (IBLOCK inum)
        iget inum
      else do
        brelse (IBLOCK inum)
        iallocLoop type n (inum + 1)

/-- `ialloc`: allocate a new inode with the given type. -/
def ialloc (type : Int16) : FsProg Slot := do
  let sb ← readsb
  iallocLoop type (sb.ninodes - 1) 1

/-- `iupdate`: copy an inode, which has changed, from memory to disk. -/
def iupdate (ip : Slot) : FsProg Unit := do
  let x ← inode ip
  let bp ← bread (IBLOCK x.inum)
  bwrite (IBLOCK x.inum) (putDinode bp x.inum x.d)
  brelse (IBLOCK x.inum)

/-- `ilock`: lock the given inode. -/
def ilock (ip : Slot) : FsProg Unit := do
  ilockBusy ip
  let x ← inode ip
  if x.valid then pure ()
  else do
    let bp ← bread (IBLOCK x.inum)
    setInode ip (dinodeAt bp x.inum)
    brelse (IBLOCK x.inum)
    setValid ip
    if (dinodeAt bp x.inum).type = 0 then Prog.panic "ilock: no type" else pure ()

/-- The step of `bmap` that loads the address of the indirect block, allocating it if necessary. -/
def bmapIndirect (ip : Slot) (d : Dinode) : FsProg Nat :=
  if d.indirect = 0 then do
    let addr ← balloc
    setInode ip (d.setAddr 12 addr)
    pure addr
  else pure d.indirect

/-- `bmap`: the disk block address of the `bn`-th block of an inode, allocated if there is none. -/
def bmap (ip : Slot) (bn : Nat) : FsProg Nat := do
  let x ← inode ip
  if h : bn < NDIRECT then
    if x.d.direct bn = 0 then do
      let addr ← balloc
      setInode ip (x.d.setAddr ⟨bn, lt_of_direct h⟩ addr)
      pure addr
    else pure (x.d.direct bn)
  else if bn - NDIRECT < NINDIRECT then do
    let ind ← bmapIndirect ip x.d
    let bp ← bread ind
    if addrAt bp (bn - NDIRECT) = 0 then do
      let addr ← balloc
      bwrite ind (putAddr bp (bn - NDIRECT) addr)
      brelse ind
      pure addr
    else do
      brelse ind
      pure (addrAt bp (bn - NDIRECT))
  else Prog.panic "bmap: out of range"

/-- The body of the first loop of `itrunc`. -/
def itruncAddr (ip : Slot) (i : Fin NDIRECT) : FsProg Unit := do
  let x ← inode ip
  if x.d.direct i = 0 then pure ()
  else do
    bfree (x.d.direct i)
    setInode ip (x.d.setAddr i.castSucc 0)

/-- The first loop of `itrunc`, over a list of direct addresses. -/
def itruncDirect (ip : Slot) : List (Fin NDIRECT) → FsProg Unit
  | [] => pure ()
  | i :: is => do
      itruncAddr ip i
      itruncDirect ip is

/-- The second loop of `itrunc`, over `n` entries of the indirect block from `j` on. -/
def itruncEntries (a : Block) : (n j : Nat) → FsProg Unit
  | 0, _ => pure ()
  | n + 1, j => do
      (if addrAt a j = 0 then pure () else bfree (addrAt a j))
      itruncEntries a n (j + 1)

/-- The part of `itrunc` that frees the indirect block and the blocks it lists. -/
def itruncIndirect (ip : Slot) : FsProg Unit := do
  let x ← inode ip
  if x.d.indirect = 0 then pure ()
  else do
    let a ← bread x.d.indirect
    itruncEntries a NINDIRECT 0
    brelse x.d.indirect
    bfree x.d.indirect
    setInode ip (x.d.setAddr 12 0)

/-- `itrunc`: discard the contents of an inode. -/
def itrunc (ip : Slot) : FsProg Unit := do
  itruncDirect ip (List.finRange NDIRECT)
  itruncIndirect ip
  let x ← inode ip
  setInode ip { x.d with size := 0 }
  iupdate ip

/-- `iput`: drop a reference to an unlocked inode. -/
def iput (ip : Slot) : FsProg Unit := do
  let freed ← iputTest ip
  if freed then do
    -- inode is no longer used: truncate and free inode
    itrunc ip
    let x ← inode ip
    setInode ip { x.d with type := 0 }
    iupdate ip
    iputFreed ip
  else pure ()

/-- `iunlockput`: unlock, then put. -/
def iunlockput (ip : Slot) : FsProg Unit := do
  iunlock ip
  iput ip

end Xv6.Fs

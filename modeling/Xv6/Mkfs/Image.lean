import Xv6.Fs.Contents
import Mathlib.Data.List.Monad

/-! # `mkfs`

The program that writes the file system image, function by function. An image is the contents of the
sectors of `fs.img`; a failed assertion and a call of `exit(1)` are `none`. The numbers in the
structures are kept least significant byte first on every host, which is what `xshort` and `xint`
are for. -/

namespace Xv6.Mkfs

open Lib Fs

/-- `nblocks`. -/
def nblocks : Nat := 995

/-- `ninodes`. -/
def ninodes : Nat := 200

/-- `size`. -/
def size : Nat := 1024

/-- `bitblocks`. -/
def bitblocks : Nat := size / (512 * 8) + 1

/-- The sector of the bitmap. -/
def bitmap : Nat := ninodes / IPB + 3

/-- The number of blocks in use before the first file: the first data block. -/
def firstData : Nat := ninodes / IPB + 3 + bitblocks

/-- **The state of `mkfs`**: the image and the global counters. -/
structure Image where
  /-- The sectors of `fs.img`. -/
  img : Disk
  freeblock : Nat
  usedblocks : Nat
  freeinode : Nat

/-- What one `read` of an input file delivers. -/
structure Piece where
  bytes : List UInt8
  pos : bytes ≠ []
  le : bytes.length ≤ 512

/-- An input file: its name on the command line, and what the reads until the end of file deliver. -/
structure InFile where
  argv : List UInt8
  reads : List Piece
  /-- The argument is a string. -/
  nonzero : 0 ∉ argv

/-- The bytes of an input file. -/
def InFile.contents (f : InFile) : List UInt8 := f.reads.flatMap Piece.bytes

/-- The name in the file system: a leading `'_'` is skipped. -/
def InFile.name (f : InFile) : List UInt8 :=
  if f.argv.head? = some 95 then f.argv.tail else f.argv

namespace Image

/-- `wsect`. -/
def wsect (s : Image) (sec : Nat) (buf : Block) : Image :=
  { s with img := Function.update s.img sec buf }

/-- `rsect`; it fails behind the end of the image. -/
def rsect (s : Image) (sec : Nat) : Option Block := if sec < size then some (s.img sec) else none

/-- `winode`; `i2b` is `IBLOCK`. -/
def winode (s : Image) (inum : Nat) (din : Dinode) : Option Image := do
  let buf ← s.rsect (IBLOCK inum)
  pure (s.wsect (IBLOCK inum) (putDinode buf inum din))

/-- `rinode`. -/
def rinode (s : Image) (inum : Nat) : Option Dinode := do
  let buf ← s.rsect (IBLOCK inum)
  pure (dinodeAt buf inum)

/-- `ialloc`: the number of the new inode. -/
def ialloc (s : Image) (type : Int16) : Option (Image × Nat) := do
  let inum := s.freeinode
  let s := { s with freeinode := s.freeinode + 1 }
  let s ← s.winode inum { Dinode.blank type with nlink := 1 }
  pure (s, inum)

/-- `freeblock++`, together with `usedblocks++`: the number of the block and the new state. -/
def take (s : Image) : Image :=
  { s with freeblock := s.freeblock + 1, usedblocks := s.usedblocks + 1 }

/-- The part of `iappend` for a block among the direct ones: the inode and the block. -/
def direct (s : Image) (din : Dinode) (fbn : Nat) (h : fbn < NDIRECT) : Image × Dinode × Nat :=
  if din.direct fbn = 0 then
    (s.take, din.setAddr ⟨fbn, lt_of_direct h⟩ s.freeblock, s.freeblock)
  else (s, din, din.direct fbn)

/-- The part of `iappend` that allocates the indirect block. -/
def indirect (s : Image) (din : Dinode) : Image × Dinode :=
  if din.indirect = 0 then (s.take, din.setAddr 12 s.freeblock) else (s, din)

/-- The part of `iappend` that looks up or allocates an entry of the indirect block. -/
def entry (s : Image) (din : Dinode) (fbn : Nat) : Option (Image × Dinode × Nat) := do
  let indirect ← s.rsect din.indirect
  if addrAt indirect (fbn - NDIRECT) = 0 then
    pure (s.take.wsect din.indirect (putAddr indirect (fbn - NDIRECT) s.freeblock), din,
      s.freeblock)
  else pure (s, din, addrAt indirect (fbn - NDIRECT))

/-- The part of `iappend` that finds the block `x` for the block index `fbn`. -/
def address (s : Image) (din : Dinode) (fbn : Nat) : Option (Image × Dinode × Nat) :=
  if h : fbn < NDIRECT then some (s.direct din fbn h)
  else (s.indirect din).1.entry (s.indirect din).2 fbn

/-- The loop of `iappend`. -/
def iappendLoop : (fuel : Nat) → Image → Dinode → (off : Nat) → (p : List UInt8) →
    Option (Image × Dinode × Nat)
  | 0, s, din, off, _ => some (s, din, off)
  | fuel + 1, s, din, off, p =>
      if p = [] then some (s, din, off)
      else do
        let fbn := off / 512
        guard (fbn < MAXFILE)
        let (s, din, x) ← s.address din fbn
        let n1 := min p.length ((fbn + 1) * 512 - off)
        let buf ← s.rsect x
        let s := s.wsect x (buf.blit (off - fbn * 512) (p.take n1))
        iappendLoop fuel s din (off + n1) (p.drop n1)

/-- `iappend`: append bytes to the file of an inode. -/
def iappend (s : Image) (inum : Nat) (p : List UInt8) : Option Image := do
  let din ← s.rinode inum
  let (s, din, off) ← s.iappendLoop p.length din din.size.toNat p
  s.winode inum { din with size := UInt32.ofNat off }

/-- The bitmap block with the bits of the first blocks set. -/
def bitmapOf : (used : Nat) → Block
  | 0 => Bytes.zero
  | i + 1 => setBit (bitmapOf i) i

/-- `balloc`: write the bitmap. -/
def balloc (s : Image) (used : Nat) : Option Image := do
  guard (used < 512)
  pure (s.wsect bitmap (bitmapOf used))

/-- The image before the first inode: zeros and the superblock. A whole sector is written from the
address of `sb`; `pad` has the bytes that lie behind it in memory. -/
def start (pad : Block) : Image where
  img := Function.update (fun _ => Bytes.zero) 1
    (pad.blit 0 (bytes32 size ++ (bytes32 nblocks ++ bytes32 ninodes)))
  freeblock := firstData
  usedblocks := firstData
  freeinode := 1

/-- The loop over the reads of an input file. -/
def copy (s : Image) (inum : Nat) (reads : List Piece) : Option Image :=
  reads.foldlM (fun s r => s.iappend inum r.bytes) s

/-- The body of the loop over the input files. -/
def add (rootino : Nat) (s : Image) (f : InFile) : Option Image := do
  guard (47 ∉ f.argv)
  -- `open` fails on an empty name
  guard (f.argv ≠ [])
  let (s, inum) ← s.ialloc T_FILE
  let s ← s.iappend rootino (direntBytes ⟨inum, f.name⟩)
  s.copy inum f.reads

/-- The last part of `main`: fix the size of the root directory and write the bitmap. -/
def finish (s : Image) (rootino : Nat) : Option Image := do
  let din ← s.rinode rootino
  let off := (din.size.toNat / BSIZE + 1) * BSIZE
  let s ← s.winode rootino { din with size := UInt32.ofNat off }
  s.balloc s.usedblocks

end Image

/-- **`main`** on the given input files. -/
def mkfs (pad : Block) (files : List InFile) : Option Image := do
  guard (nblocks + firstData = size)
  let (s, rootino) ← (Image.start pad).ialloc T_DIR
  guard (rootino = ROOTINO)
  let s ← s.iappend rootino (direntBytes ⟨rootino, [46]⟩)
  let s ← s.iappend rootino (direntBytes ⟨rootino, [46, 46]⟩)
  let s ← files.foldlM (Image.add rootino) s
  s.finish rootino

end Xv6.Mkfs

import Xv6.Fs.Inode

/-! # Contents, directories and paths

The upper half of `fs.c`: reading and writing the contents of an inode, directory entries and path
names, together with the console's entries of `devsw`, which `readi` and `writei` call. The buffers
passed to `readi` and `writei` lie either in the kernel or in the memory of the calling process. -/

namespace Xv6.Fs

open Lib

/-! ## Buffers -/

/-- Where `readi` stores bytes: a kernel buffer, whose contents become part of the result, or user
memory. -/
inductive Dst
  | kernel
  | user (addr : Nat)

/-- Where `writei` takes bytes from. -/
inductive Src
  | kernel (bytes : List UInt8)
  | user (addr : Nat)

/-- Store bytes at an offset of the destination. -/
def Dst.store (dst : Dst) (o : Nat) (bytes : List UInt8) : FsProg Unit :=
  match dst with
  | .kernel => pure ()
  | .user addr => uwrite ((addr + o) % 4294967296) bytes

/-- Fetch `m` bytes at an offset of the source. -/
def Src.fetch (src : Src) (o m : Nat) : FsProg (List UInt8) :=
  match src with
  | .kernel bytes => pure ((bytes.drop o).takeD m 0)
  | .user addr => do
      let bs ← uread ((addr + o) % 4294967296) m
      pure (slice bs.byte 0 m)

/-! ## The console device -/

/-- The main loop of `consoleread` with `n` bytes still wanted of `target`; the bytes stored so far
are `acc`. The result is the number of bytes still wanted, or `none` for a killed process. -/
def consolereadLoop (dst : Dst) (target : Nat) : (n : Nat) → List UInt8 →
    FsProg (Option Nat × List UInt8)
  | 0, acc => pure (some 0, acc)
  | n + 1, acc => do
      let ready ← inputWait
      if ready then do
        let c ← inputGet
        if c = 4 then do
          -- end of file: save ^D for next time, to make sure the caller gets a 0-byte result
          (if n + 1 < target then inputUnget else pure ())
          pure (some (n + 1), acc)
        else do
          dst.store acc.length [c]
          if c = 10 then pure (some n, acc ++ [c])
          else consolereadLoop dst target n (acc ++ [c])
      else pure (none, acc)

/-- `consoleread`. -/
def consoleread (ip : Slot) (dst : Dst) (n : Int) : FsProg (Int × List UInt8) := do
  iunlock ip
  acquire .input
  let (left, bytes) ← consolereadLoop dst n.toNat n.toNat []
  release .input
  ilock ip
  match left with
  | none => pure (-1, bytes)
  | some left => pure (if n ≤ 0 then 0 else n - left, bytes)

/-- The loop of `consolewrite`, with `n` bytes left from offset `i` on. -/
def consolewriteLoop (src : Src) : (n i : Nat) → FsProg Unit
  | 0, _ => pure ()
  | n + 1, i => do
      let bs ← src.fetch i 1
      consputc (bs.headD 0)
      consolewriteLoop src n (i + 1)

/-- `consolewrite`. -/
def consolewrite (ip : Slot) (src : Src) (n : Int) : FsProg Int := do
  iunlock ip
  acquire .cons
  consolewriteLoop src n.toNat 0
  release .cons
  ilock ip
  pure n

/-- `CONSOLE`, the only major number with entries in `devsw`. -/
def CONSOLE : Int16 := 1

/-! ## Inode contents -/

/-- The loop of `readi`: `tot` of `n` bytes are read, the next one is at `off`. -/
def readiLoop (ip : Slot) (dst : Dst) (n : Nat) : (fuel tot off : Nat) → List UInt8 →
    FsProg (List UInt8)
  | 0, _, _, acc => pure acc
  | fuel + 1, tot, off, acc =>
      if tot < n then do
        let addr ← bmap ip (off / BSIZE)
        let bp ← bread addr
        let m := min (n - tot) (BSIZE - off % BSIZE)
        dst.store tot (slice bp.byte (off % BSIZE) m)
        brelse addr
        readiLoop ip dst n fuel (tot + m) (off + m) (acc ++ slice bp.byte (off % BSIZE) m)
      else pure acc

/-- `readi`: read data from an inode. The result is the value returned and the bytes stored. -/
def readi (ip : Slot) (dst : Dst) (off n : Nat) : FsProg (Int × List UInt8) := do
  let x ← inode ip
  if x.d.type = T_DEV then
    if x.d.major = CONSOLE then consoleread ip dst (toInt n) else pure (-1, [])
  else if off > x.d.size.toNat ∨ (off + n) % 4294967296 < off then pure (-1, [])
  else do
    let n := if off + n > x.d.size.toNat then x.d.size.toNat - off else n
    let bytes ← readiLoop ip dst n n 0 off []
    pure (toInt n, bytes)

/-- The loop of `writei`: `tot` of `n` bytes are written, the next one goes to `off`. The result is
the value of `off` at the end. -/
def writeiLoop (ip : Slot) (src : Src) (n : Nat) : (fuel tot off : Nat) → FsProg Nat
  | 0, _, off => pure off
  | fuel + 1, tot, off =>
      if tot < n then do
        let addr ← bmap ip (off / BSIZE)
        let bp ← bread addr
        let m := min (n - tot) (BSIZE - off % BSIZE)
        let bytes ← src.fetch tot m
        bwrite addr (bp.blit (off % BSIZE) bytes)
        brelse addr
        writeiLoop ip src n fuel (tot + m) (off + m)
      else pure off

/-- `writei`: write data to an inode. -/
def writei (ip : Slot) (src : Src) (off n : Nat) : FsProg Int := do
  let x ← inode ip
  if x.d.type = T_DEV then
    if x.d.major = CONSOLE then consolewrite ip src (toInt n) else pure (-1)
  else if off > x.d.size.toNat ∨ (off + n) % 4294967296 < off then pure (-1)
  else do
    let n := if off + n > MAXFILE * BSIZE then (MAXFILE * BSIZE + 4294967296 - off) % 4294967296
      else n
    let off ← writeiLoop ip src n n 0 off
    let x ← inode ip
    if 0 < n ∧ off > x.d.size.toNat then do
      setInode ip { x.d with size := UInt32.ofNat off }
      iupdate ip
      pure (toInt n)
    else pure (toInt n)

end Xv6.Fs

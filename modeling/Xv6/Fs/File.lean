import Xv6.Fs.Dir

/-! # Open files and pipes

The functions of `file.c` and `pipe.c`. -/

namespace Xv6.Fs

open Lib

/-! ## Pipes -/

/-- `pipeclose`. -/
def pipeclose (p : Nat) (writable : Bool) : FsProg Unit := do
  let closed ← pipeCloseEnd p writable
  if closed then kfree p else pure ()

/-- The loop of `pipewrite`, with `n` bytes left from offset `i` on; the result says whether it got
to the end. -/
def pipewriteLoop (p : Nat) (src : Src) : (n i : Nat) → FsProg Bool
  | 0, _ => pure true
  | n + 1, i => do
      let room ← pipeWaitRoom p
      if room then do
        let bs ← src.fetch i 1
        pipePut p (bs.headD 0)
        pipewriteLoop p src n (i + 1)
      else pure false

/-- `pipewrite`. -/
def pipewrite (p : Nat) (src : Src) (n : Int) : FsProg Int := do
  acquire (.pipe p)
  let done ← pipewriteLoop p src n.toNat 0
  release (.pipe p)
  pure (if done then n else -1)

/-- The copying loop of `piperead`, with `n` bytes wanted from offset `i` on; the result is the
value of `i` at the end. -/
def pipereadLoop (p : Nat) (dst : Dst) : (n i : Nat) → FsProg Nat
  | 0, i => pure i
  | n + 1, i => do
      let c ← pipeGet p
      match c with
      | none => pure i
      | some c => do
          dst.store i [c]
          pipereadLoop p dst n (i + 1)

/-- `piperead`. -/
def piperead (p : Nat) (dst : Dst) (n : Int) : FsProg Int := do
  acquire (.pipe p)
  let ready ← pipeWaitData p
  if ready then do
    let i ← pipereadLoop p dst n.toNat 0
    release (.pipe p)
    pure i
  else do
    release (.pipe p)
    pure (-1)

/-! ## Files -/

/-- `fileclose`: drop a reference to a file, and close it when it was the last one. -/
def fileclose (f : Fid) : FsProg Unit := do
  let last ← filecloseRef f
  match last with
  | none => pure ()
  | some ff =>
      match ff.type with
      | .pipe => pipeclose ff.pipe ff.writable
      | .inode => iput ff.ip
      | .none => pure ()

/-- `stati`: copy the stat information of an inode to a `struct stat` in user memory. -/
def stati (x : Inode) (st : Nat) : FsProg Unit := do
  uwrite (st + 4) (bytes32 ROOTDEV)
  uwrite (st + 8) (bytes32 x.inum)
  uwrite st (bytes16 x.d.type.toBitVec.toNat)
  uwrite (st + 12) (bytes16 x.d.nlink.toBitVec.toNat)
  uwrite (st + 16) (bytes32 x.d.size.toNat)

/-- `filestat`: get metadata about a file. -/
def filestat (f : Fid) (st : Nat) : FsProg Int := do
  let x ← file f
  if x.type = .inode then do
    ilock x.ip
    let y ← inode x.ip
    stati y st
    iunlock x.ip
    pure 0
  else pure (-1)

/-- Advance the offset of a file by the result of a transfer. -/
def advance (f : Fid) (off : Nat) (r : Int) : FsProg Unit :=
  if 0 < r then setOff f ((off + toUint r) % 4294967296) else pure ()

/-- What `fileread` and `filewrite` have in common: the check of the mode, the transfer from or to a
pipe, and the transfer from or to an inode at the file's offset. The inode of a file that is open
never changes, so `f->ip` is read only once; the offset is read under the lock. -/
def filexfer (f : Fid) (mode : File → Bool) (pipexfer : Nat → FsProg Int)
    (ixfer : Slot → Nat → FsProg Int) (msg : String) : FsProg Int := do
  let x ← file f
  if mode x = false then pure (-1)
  else match x.type with
    | .pipe => pipexfer x.pipe
    | .inode => do
        ilock x.ip
        let y ← file f
        let r ← ixfer x.ip y.off
        advance f y.off r
        iunlock x.ip
        pure r
    | .none => Prog.panic msg

/-- `fileread`. -/
def fileread (f : Fid) (addr : Nat) (n : Int) : FsProg Int :=
  filexfer f File.readable (fun p => piperead p (.user addr) n)
    (fun ip off => Prod.fst <$> readi ip (.user addr) off (toUint n)) "fileread"

/-- `filewrite`. -/
def filewrite (f : Fid) (addr : Nat) (n : Int) : FsProg Int :=
  filexfer f File.writable (fun p => pipewrite p (.user addr) n)
    (fun ip off => writei ip (.user addr) off (toUint n)) "filewrite"

/-- `pipealloc`. -/
def pipealloc : FsProg (Option (Fid × Fid)) := do
  let f0 ← filealloc
  match f0 with
  | none => pure none
  | some f0 => do
      let f1 ← filealloc
      match f1 with
      | none => do
          fileclose f0
          pure none
      | some f1 => do
          let p ← kalloc
          match p with
          | none => do
              fileclose f0
              fileclose f1
              pure none
          | some p => do
              pipeInit p
              setPipeFile f0 p true false
              setPipeFile f1 p false true
              pure (some (f0, f1))

/-! ## System call arguments -/

/-- `argptr` with the value `i` of the argument: the pointer to `size` bytes of user memory, if it
passes the check. -/
def argptr (i : Int) (size : Int) : FsProg (Option Nat) := do
  let sz ← procSz
  if toUint i ≥ sz ∨ (toUint i + toUint size) % 4294967296 ≥ sz then pure none
  else pure (some (toUint i))

/-- `argfd` with the value `fd` of the argument: the descriptor and its file. -/
def argfd (fd : Int) : FsProg (Option (Fd × Fid)) :=
  if h : 0 ≤ fd ∧ fd < NOFILE then do
    let fd : Fd := ⟨fd.toNat, by omega⟩
    let f ← ofile fd
    pure (f.map fun f => (fd, f))
  else pure none

end Xv6.Fs

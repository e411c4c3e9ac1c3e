import Xv6.Fs.File

/-! # The system calls of `sysfile.c`

Each system call takes the values of its arguments; a string argument is `none` where `argstr` fails
on it. -/

namespace Xv6.Fs

open Lib

/-- `O_WRONLY`. -/
def O_WRONLY : Nat := 0x001

/-- `O_RDWR`. -/
def O_RDWR : Nat := 0x002

/-- `O_CREATE`. -/
def O_CREATE : Nat := 0x200

/-- A string argument of a system call. -/
abbrev StrArg : Type := Option (List UInt8)

/-- The loop of `fdalloc` over `n` descriptors from `fd` on. -/
def fdallocLoop (f : Fid) : (n fd : Nat) → FsProg (Option Fd)
  | 0, _ => pure none
  | n + 1, fd =>
      if h : fd < NOFILE then do
        let cur ← ofile ⟨fd, h⟩
        match cur with
        | none => do
            setOfile ⟨fd, h⟩ (some f)
            pure (some ⟨fd, h⟩)
        | some _ => fdallocLoop f n (fd + 1)
      else pure none

/-- `fdalloc`: allocate a file descriptor for the given file. -/
def fdalloc (f : Fid) : FsProg (Option Fd) := fdallocLoop f NOFILE 0

/-- `sys_dup`. -/
def sysDup (fd : Int) : FsProg Int := do
  let a ← argfd fd
  match a with
  | none => pure (-1)
  | some (_, f) => do
      let fd ← fdalloc f
      match fd with
      | none => pure (-1)
      | some fd => do
          filedup f
          pure fd.val

/-- What `sys_read` and `sys_write` have in common: the checks of the arguments. -/
def sysxfer (filexfer : Fid → Nat → Int → FsProg Int) (fd p n : Int) : FsProg Int := do
  let a ← argfd fd
  match a with
  | none => pure (-1)
  | some (_, f) => do
      let p ← argptr p n
      match p with
      | none => pure (-1)
      | some p => filexfer f p n

/-- `sys_read`. -/
def sysRead (fd p n : Int) : FsProg Int := sysxfer fileread fd p n

/-- `sys_write`. -/
def sysWrite (fd p n : Int) : FsProg Int := sysxfer filewrite fd p n

/-- `sys_close`. -/
def sysClose (fd : Int) : FsProg Int := do
  let a ← argfd fd
  match a with
  | none => pure (-1)
  | some (fd, f) => do
      setOfile fd none
      fileclose f
      pure 0

/-- `sizeof(struct stat)`. -/
def STAT : Nat := 20

/-- `sys_fstat`. -/
def sysFstat (fd st : Int) : FsProg Int := do
  let a ← argfd fd
  match a with
  | none => pure (-1)
  | some (_, f) => do
      let st ← argptr st STAT
      match st with
      | none => pure (-1)
      | some st => filestat f st

/-- `ip->nlink--; iupdate(ip);`. -/
def dropLink (ip : Slot) : FsProg Unit := do
  let x ← inode ip
  setInode ip { x.d with nlink := x.d.nlink - 1 }
  iupdate ip

/-- `ip->nlink++; iupdate(ip);`. -/
def addLink (ip : Slot) : FsProg Unit := do
  let x ← inode ip
  setInode ip { x.d with nlink := x.d.nlink + 1 }
  iupdate ip

/-- The end of `sys_link` from its label `bad` on. -/
def sysLinkBad (ip : Slot) : FsProg Int := do
  ilock ip
  dropLink ip
  iunlockput ip
  pure (-1)

/-- `sys_link`: create the path `new` as a link to the same inode as `old`. -/
def sysLink (old new : StrArg) : FsProg Int :=
  match old, new with
  | some old, some new => do
      let ip ← namei old
      match ip with
      | none => pure (-1)
      | some ip => do
          ilock ip
          let x ← inode ip
          if x.d.type = T_DIR then do
            iunlockput ip
            pure (-1)
          else do
            addLink ip
            iunlock ip
            let dp ← nameiparent new
            match dp with
            | none => sysLinkBad ip
            | some (dp, name) => do
                ilock dp
                let x ← inode ip
                let r ← dirlink dp name x.inum
                if r < 0 then do
                  iunlockput dp
                  sysLinkBad ip
                else do
                  iunlockput dp
                  iput ip
                  pure 0
  | _, _ => pure (-1)

/-- The loop of `isdirempty` over `n` entries from offset `off` on. -/
def isdiremptyLoop (dp : Slot) : (n off : Nat) → FsProg Bool
  | 0, _ => pure true
  | n + 1, off => do
      let (r, bytes) ← readi dp .kernel off DIRENT
      if r ≠ DIRENT then Prog.panic "isdirempty: readi"
      else if (direntOf bytes).inum ≠ 0 then pure false
      else isdiremptyLoop dp n (off + DIRENT)

/-- `isdirempty`: is the directory `dp` empty except for "." and ".." ? -/
def isdirempty (dp : Slot) : FsProg Bool := do
  let x ← inode dp
  isdiremptyLoop dp ((x.d.size.toNat - 2 * DIRENT + (DIRENT - 1)) / DIRENT) (2 * DIRENT)

/-- The name ".". -/
def dot : List UInt8 := [46]

/-- The name "..". -/
def dotdot : List UInt8 := [46, 46]

/-- The second half of `sys_unlink`, once the entry at `off` of `dp` is to be erased. -/
def sysUnlinkErase (dp ip : Slot) (off : Nat) : FsProg Int := do
  let r ← writei dp (.kernel (List.replicate DIRENT 0)) off DIRENT
  if r ≠ DIRENT then Prog.panic "unlink: writei"
  else do
    let x ← inode ip
    (if x.d.type = T_DIR then dropLink dp else pure ())
    iunlockput dp
    dropLink ip
    iunlockput ip
    pure 0

/-- `sys_unlink`. -/
def sysUnlink (path : StrArg) : FsProg Int :=
  match path with
  | none => pure (-1)
  | some path => do
      let dp ← nameiparent path
      match dp with
      | none => pure (-1)
      | some (dp, name) => do
          ilock dp
          -- cannot unlink "." or ".."
          if namecmp name dot = 0 ∨ namecmp name dotdot = 0 then do
            iunlockput dp
            pure (-1)
          else do
            let found ← dirlookup dp name
            match found with
            | none => do
                iunlockput dp
                pure (-1)
            | some (ip, off) => do
                ilock ip
                let x ← inode ip
                if x.d.nlink < 1 then Prog.panic "unlink: nlink < 1"
                else if x.d.type = T_DIR then do
                  let empty ← isdirempty ip
                  if empty then sysUnlinkErase dp ip off
                  else do
                    iunlockput ip
                    iunlockput dp
                    pure (-1)
                else sysUnlinkErase dp ip off

/-- The part of `create` that makes the entries "." and ".." of a new directory. -/
def createDots (dp ip : Slot) : FsProg Unit := do
  addLink dp
  -- no ip->nlink++ for ".": avoid cyclic ref count
  let x ← inode ip
  let r ← dirlink ip dot x.inum
  if r < 0 then Prog.panic "create dots"
  else do
    let y ← inode dp
    let r ← dirlink ip dotdot y.inum
    if r < 0 then Prog.panic "create dots" else pure ()

/-- `create`: the inode of a path, locked, made if it is not there. -/
def create (path : List UInt8) (type major minor : Int16) : FsProg (Option Slot) := do
  let dp ← nameiparent path
  match dp with
  | none => pure none
  | some (dp, name) => do
      ilock dp
      let found ← dirlookup dp name
      match found with
      | some (ip, _) => do
          iunlockput dp
          ilock ip
          let x ← inode ip
          if type = T_FILE ∧ x.d.type = T_FILE then pure (some ip)
          else do
            iunlockput ip
            pure none
      | none => do
          let ip ← ialloc type
          ilock ip
          let x ← inode ip
          setInode ip { x.d with major := major, minor := minor, nlink := 1 }
          iupdate ip
          (if type = T_DIR then createDots dp ip else pure ())
          let x ← inode ip
          let r ← dirlink dp name x.inum
          if r < 0 then Prog.panic "create: dirlink"
          else do
            iunlockput dp
            pure (some ip)

/-- The end of `sys_open`, with the inode `ip` locked. -/
def sysOpenFile (ip : Slot) (omode : Int) : FsProg Int := do
  let f ← filealloc
  match f with
  | none => do
      iunlockput ip
      pure (-1)
  | some f => do
      let fd ← fdalloc f
      match fd with
      | none => do
          fileclose f
          iunlockput ip
          pure (-1)
      | some fd => do
          iunlock ip
          setInodeFile f ip (toUint omode &&& O_WRONLY = 0)
            (toUint omode &&& O_WRONLY ≠ 0 ∨ toUint omode &&& O_RDWR ≠ 0)
          pure fd.val

/-- `sys_open`. -/
def sysOpen (path : StrArg) (omode : Int) : FsProg Int :=
  match path with
  | none => pure (-1)
  | some path =>
      if toUint omode &&& O_CREATE ≠ 0 then do
        let ip ← create path T_FILE 0 0
        match ip with
        | none => pure (-1)
        | some ip => sysOpenFile ip omode
      else do
        let ip ← namei path
        match ip with
        | none => pure (-1)
        | some ip => do
            ilock ip
            let x ← inode ip
            if x.d.type = T_DIR ∧ omode ≠ 0 then do
              iunlockput ip
              pure (-1)
            else sysOpenFile ip omode

/-- `sys_mkdir`. -/
def sysMkdir (path : StrArg) : FsProg Int :=
  match path with
  | none => pure (-1)
  | some path => do
      let ip ← create path T_DIR 0 0
      match ip with
      | none => pure (-1)
      | some ip => do
          iunlockput ip
          pure 0

/-- `sys_mknod`. -/
def sysMknod (path : StrArg) (major minor : Int) : FsProg Int :=
  match path with
  | none => pure (-1)
  | some path => do
      let ip ← create path T_DEV (Int16.ofInt major) (Int16.ofInt minor)
      match ip with
      | none => pure (-1)
      | some ip => do
          iunlockput ip
          pure 0

/-- `sys_chdir`. -/
def sysChdir (path : StrArg) : FsProg Int :=
  match path with
  | none => pure (-1)
  | some path => do
      let ip ← namei path
      match ip with
      | none => pure (-1)
      | some ip => do
          ilock ip
          let x ← inode ip
          if x.d.type ≠ T_DIR then do
            iunlockput ip
            pure (-1)
          else do
            iunlock ip
            let old ← cwd
            iput old
            setCwd (some ip)
            pure 0

/-- `sys_pipe`. -/
def sysPipe (fdp : Int) : FsProg Int := do
  let fdp ← argptr fdp 8
  match fdp with
  | none => pure (-1)
  | some fdp => do
      let files ← pipealloc
      match files with
      | none => pure (-1)
      | some (rf, wf) => do
          let fd0 ← fdalloc rf
          match fd0 with
          | none => do
              fileclose rf
              fileclose wf
              pure (-1)
          | some fd0 => do
              let fd1 ← fdalloc wf
              match fd1 with
              | none => do
                  setOfile fd0 none
                  fileclose rf
                  fileclose wf
                  pure (-1)
              | some fd1 => do
                  uwrite fdp (bytes32 fd0.val)
                  uwrite (fdp + 4) (bytes32 fd1.val)
                  pure 0

end Xv6.Fs

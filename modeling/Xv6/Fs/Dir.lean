import Xv6.Fs.Data

/-! # Directories and path names

The last part of `fs.c`. Path names are lists of characters without the terminating zero. -/

namespace Xv6.Fs

open Lib

/-! ## Directories -/

/-- The inner loop of `dirlookup`: the first entry in use with the given name among `n` entries of a
directory block from `k` on. -/
def findEntry (bp : Block) (name : List UInt8) : (n k : Nat) → Option Nat
  | 0, _ => none
  | n + 1, k =>
      if (direntAt bp k).inum ≠ 0 ∧ namecmp name (direntAt bp k).name = 0 then some k
      else findEntry bp name n (k + 1)

/-- The outer loop of `dirlookup`, over `n` blocks from block `bn` on. -/
def dirlookupLoop (dp : Slot) (name : List UInt8) : (n bn : Nat) → FsProg (Option (Slot × Nat))
  | 0, _ => pure none
  | n + 1, bn => do
      let addr ← bmap dp bn
      let bp ← bread addr
      match findEntry bp name (BSIZE / DIRENT) 0 with
      | some k => do
          -- entry matches path element
          brelse addr
          let ip ← iget (direntAt bp k).inum
          pure (some (ip, bn * BSIZE + DIRENT * k))
      | none => do
          brelse addr
          dirlookupLoop dp name n (bn + 1)

/-- `dirlookup`: look for an entry in a directory. The result is the inode, unlocked, and the byte
offset of the entry. -/
def dirlookup (dp : Slot) (name : List UInt8) : FsProg (Option (Slot × Nat)) := do
  let x ← inode dp
  if x.d.type = T_DIR then
    dirlookupLoop dp name ((x.d.size.toNat + (BSIZE - 1)) / BSIZE) 0
  else Prog.panic "dirlookup not DIR"

/-- The loop of `dirlink` that looks for an empty entry, over `n` entries from offset `off` on. -/
def findEmpty (dp : Slot) : (n off : Nat) → FsProg Nat
  | 0, off => pure off
  | n + 1, off => do
      let (r, bytes) ← readi dp .kernel off DIRENT
      if r ≠ DIRENT then Prog.panic "dirlink read"
      else if (direntOf bytes).inum = 0 then pure off
      else findEmpty dp n (off + DIRENT)

/-- `dirlink`: write a new entry into a directory. -/
def dirlink (dp : Slot) (name : List UInt8) (inum : Nat) : FsProg Int := do
  -- check that name is not present
  let found ← dirlookup dp name
  match found with
  | some (ip, _) => do
      iput ip
      pure (-1)
  | none => do
      let x ← inode dp
      let off ← findEmpty dp ((x.d.size.toNat + (DIRENT - 1)) / DIRENT) 0
      let r ← writei dp (.kernel (direntBytes ⟨inum, name⟩)) off DIRENT
      if r ≠ DIRENT then Prog.panic "dirlink" else pure 0

/-! ## Paths -/

/-- The character `'/'`. -/
def slash : UInt8 := 47

/-- `skipelem`: the next path element, cut to `DIRSIZ` characters, and the path after it, or `none`
if there is no element left. -/
def skipelem (path : List UInt8) : Option (List UInt8 × List UInt8) :=
  match path.dropWhile (· = slash) with
  | [] => none
  | c :: cs =>
      let rest := (c :: cs).dropWhile (· ≠ slash)
      some (((c :: cs).takeWhile (· ≠ slash)).take DIRSIZ, rest.dropWhile (· = slash))

/-- What is left of a path is shorter. -/
theorem length_skipelem {path name rest : List UInt8} (h : skipelem path = some (name, rest)) :
    rest.length < path.length := by
  unfold skipelem at h
  split at h
  · cases h
  · next c cs hpath =>
      have hle : (c :: cs).length ≤ path.length := by
        rw [← hpath]
        exact (List.dropWhile_sublist _).length_le
      have hhead : c ≠ slash := by
        have hne : path.dropWhile (· = slash) ≠ [] := by rw [hpath]; simp
        have := List.head_dropWhile_not (p := fun x => decide (x = slash)) (l := path) hne
        simpa [hpath] using this
      cases h
      rw [List.dropWhile_cons_of_pos (by simpa using hhead)]
      have h₁ := (List.dropWhile_sublist (l := cs) (p := fun x => decide (x ≠ slash))).length_le
      have h₂ := (List.dropWhile_sublist (l := cs.dropWhile fun x => decide (x ≠ slash))
        (p := fun x => decide (x = slash))).length_le
      rw [List.length_cons] at hle
      omega

/-- The loop of `namex` at the inode `ip` with `path` left. The result is the inode, unlocked, and
the last path element. -/
def namexLoop (nameiparent : Bool) : (fuel : Nat) → Slot → (path name : List UInt8) →
    FsProg (Option (Slot × List UInt8))
  | 0, _, _, _ => pure none
  | fuel + 1, ip, path, last =>
      match skipelem path with
      | none =>
          if nameiparent then do
            iput ip
            pure none
          else pure (some (ip, last))
      | some (name, rest) => do
          ilock ip
          let x ← inode ip
          if x.d.type ≠ T_DIR then do
            iunlockput ip
            pure none
          else if nameiparent ∧ rest = [] then do
            -- stop one level early
            iunlock ip
            pure (some (ip, name))
          else do
            let next ← dirlookup ip name
            match next with
            | none => do
                iunlockput ip
                pure none
            | some (next, _) => do
                iunlockput ip
                namexLoop nameiparent fuel next rest name

/-- Where `namex` starts: at the root or at the current directory. -/
def namexStart (path : List UInt8) : FsProg Slot :=
  if path.head? = some slash then iget ROOTINO
  else do
    let ip ← cwd
    idup ip
    pure ip

/-- `namex`: look up and return the inode for a path name, or for its parent. -/
def namex (path : List UInt8) (nameiparent : Bool) : FsProg (Option (Slot × List UInt8)) := do
  let ip ← namexStart path
  namexLoop nameiparent (path.length + 1) ip path []

/-- `namei`. -/
def namei (path : List UInt8) : FsProg (Option Slot) := do
  let r ← namex path false
  pure (r.map Prod.fst)

/-- `nameiparent`. -/
def nameiparent (path : List UInt8) : FsProg (Option (Slot × List UInt8)) := namex path true

end Xv6.Fs

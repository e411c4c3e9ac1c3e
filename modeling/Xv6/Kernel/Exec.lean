import Xv6.Fs.Act

/-! # `exec`

The code of `exec.c`, together with `loaduvm` of `vm.c`, over the operations it calls. It is written
for any monad in which these operations are given, so that the same code can be run on a model of
the physical memory and be taken as a program of the file layers. -/

namespace Xv6

open Lib

/-- `PGSIZE`. -/
def PGSIZE : Nat := 4096

/-- `PGROUNDUP(sz)` on a `uint`. -/
def pgroundup (a : Nat) : Nat := (a + (PGSIZE - 1)) % 4294967296 / PGSIZE * PGSIZE

/-- `PGROUNDDOWN(a)`. -/
def pgrounddown (a : Nat) : Nat := a / PGSIZE * PGSIZE

/-- `PTE_ADDR(pte)`. -/
def pteAddr (pte : Nat) : Nat := pte / PGSIZE * PGSIZE

/-- The operations that `exec` calls, for inodes of type `I`. -/
structure ExecOps (M : Type → Type) (I : Type) where
  /-- `namei(path)`. -/
  namei : List UInt8 → M (Option I)
  /-- `ilock(ip)`. -/
  ilock : I → M Unit
  /-- `readi(ip, buf, off, n)` into kernel memory: the value returned and the bytes read. -/
  readi : I → (off n : Nat) → M (Int × List UInt8)
  /-- `iunlockput(ip)`. -/
  iunlockput : I → M Unit
  /-- `setupkvm()`. -/
  setupkvm : M (Option Nat)
  /-- `allocuvm(pgdir, oldsz, newsz)`. -/
  allocuvm : (pgdir oldsz newsz : Nat) → M Nat
  /-- The entry at `walkpgdir(pgdir, va, 0)`, if there is one. -/
  pte : (pgdir va : Nat) → M (Option Nat)
  /-- Stores to physical memory. -/
  store : (pa : Nat) → List UInt8 → M Unit
  /-- `freevm(pgdir)`. -/
  freevm : Nat → M Unit
  /-- The assignments to `*proc`, its trapframe and the user's registers; the answer is the old page
  directory. -/
  commit : (pgdir sz : Nat) → (name : List UInt8) → (entry sp argc argp : Nat) → M Nat
  /-- `switchuvm(proc)`. -/
  switchuvm : M Unit
  /-- `panic(msg)`. -/
  panic : {α : Type} → String → M α

/-- `struct elfhdr`, as far as `exec` looks at it. -/
structure Elfhdr where
  magic : Nat
  entry : Nat
  phoff : Nat
  phnum : Nat

/-- `sizeof(struct elfhdr)`. -/
def ELFHDR : Nat := 52

/-- The header in a list of bytes. -/
def elfhdrOf (bs : List UInt8) : Elfhdr :=
  ⟨le32 (bs.getD · 0) 0, le32 (bs.getD · 0) 24, le32 (bs.getD · 0) 28, le16 (bs.getD · 0) 44⟩

/-- `ELF_MAGIC`. -/
def ELF_MAGIC : Nat := 0x464C457F

/-- `struct proghdr`, as far as `exec` looks at it. -/
structure Proghdr where
  type : Nat
  offset : Nat
  va : Nat
  filesz : Nat
  memsz : Nat

/-- `sizeof(struct proghdr)`. -/
def PROGHDR : Nat := 32

/-- The program header in a list of bytes. -/
def proghdrOf (bs : List UInt8) : Proghdr :=
  ⟨le32 (bs.getD · 0) 0, le32 (bs.getD · 0) 4, le32 (bs.getD · 0) 8, le32 (bs.getD · 0) 16,
    le32 (bs.getD · 0) 20⟩

/-- `ELF_PROG_LOAD`. -/
def ELF_PROG_LOAD : Nat := 1

/-- The part of a path after its last `'/'`, cut to the 15 characters of `proc->name`. -/
def progName (path : List UInt8) : List UInt8 :=
  ((path.reverse.takeWhile (· ≠ 47)).reverse).take 15

section Exec

variable {M : Type → Type} [Monad M] {I : Type} (o : ExecOps M I)

/-- The loop of `loaduvm` over `n` pages from offset `i` of the segment on. -/
def loaduvmLoop (pgdir addr : Nat) (ip : I) (offset sz : Nat) : (n i : Nat) → M Bool
  | 0, _ => pure true
  | n + 1, i =>
      if i < sz then do
        let pte ← o.pte pgdir ((addr + i) % 4294967296)
        match pte with
        | none => o.panic "loaduvm: address should exist\n"
        | some pte => do
            let len := if sz - i < PGSIZE then sz - i else PGSIZE
            let (r, bytes) ← o.readi ip ((offset + i) % 4294967296) len
            o.store (pteAddr pte) bytes
            if toUint r ≠ len then pure false
            else loaduvmLoop pgdir addr ip offset sz n (i + PGSIZE)
      else pure true

/-- `loaduvm`: load a program segment into `pgdir`. -/
def loaduvm (pgdir addr : Nat) (ip : I) (offset sz : Nat) : M Bool :=
  if addr % PGSIZE ≠ 0 then o.panic "loaduvm: addr must be page aligned\n"
  else loaduvmLoop o pgdir addr ip offset sz (sz / PGSIZE + 1) 0

/-- The loop of `exec` over `n` program headers from file offset `off` on, with `sz` bytes allocated
so far. `none` stands for `goto bad`. -/
def execLoad (pgdir : Nat) (ip : I) : (n off sz : Nat) → M (Option Nat)
  | 0, _, sz => pure (some sz)
  | n + 1, off, sz => do
      let (r, bytes) ← o.readi ip off PROGHDR
      if toUint r ≠ PROGHDR then pure none
      else if (proghdrOf bytes).type ≠ ELF_PROG_LOAD then
        execLoad pgdir ip n ((off + PROGHDR) % 4294967296) sz
      else if (proghdrOf bytes).memsz < (proghdrOf bytes).filesz then pure none
      else do
        let sz ← o.allocuvm pgdir sz
          (((proghdrOf bytes).va + (proghdrOf bytes).memsz) % 4294967296)
        if sz = 0 then pure none
        else do
          let ok ← loaduvm o pgdir (proghdrOf bytes).va ip (proghdrOf bytes).offset
            (proghdrOf bytes).filesz
          if ok then execLoad pgdir ip n ((off + PROGHDR) % 4294967296) sz
          else pure none

/-- The end of `exec` from its label `bad` on. -/
def execBad (pgdir : Option Nat) (ip : I) : M Int := do
  (match pgdir with
    | some pgdir => o.freevm pgdir
    | none => pure ())
  o.iunlockput ip
  pure (-1)

/-- The length of the argument strings on the new stack. -/
def argLen (argv : List (List UInt8)) : Nat :=
  ((argv.map fun a => a.length + 1).sum + 3) / 4 * 4

/-- The loop of `exec` that copies the strings and pointers of `argv`, the last one first: `argv` is
given in reverse, `i` is its length, and the page of the stack is at `mem`. -/
def pushArgs (mem spbottom argp : Nat) : List (List UInt8) → (sp : Nat) → M Unit
  | [], _ => pure ()
  | a :: rest, sp => do
      let sp := (sp + 4294967296 - (a.length + 1)) % 4294967296
      o.store ((mem + sp + 4294967296 - spbottom) % 4294967296) (a ++ [0])
      o.store ((mem + argp + 4294967296 - spbottom + 4 * rest.length) % 4294967296) (bytes32 sp)
      pushArgs mem spbottom argp rest sp

/-- The second half of `exec`: the stack, the arguments and the new image. -/
def execStack (pgdir : Nat) (ip : I) (sz : Nat) (path : List UInt8) (argv : List (List UInt8))
    (entry : Nat) : M Int := do
  let spbottom := pgroundup sz
  let sz ← o.allocuvm pgdir spbottom ((spbottom + PGSIZE) % 4294967296)
  if sz = 0 then execBad o (some pgdir) ip
  else do
    let pte ← o.pte pgdir spbottom
    let mem := (pte.map pteAddr).getD 0
    let argp := (sz + 2 * 4294967296 - argLen argv - 4 * (argv.length + 1)) % 4294967296
    o.store ((mem + argp + 4294967296 - spbottom + 4 * argv.length) % 4294967296) (bytes32 0)
    pushArgs o mem spbottom argp argv.reverse sz
    let oldpgdir ← o.commit pgdir sz (progName path) entry argp argv.length argp
    o.switchuvm
    o.freevm oldpgdir
    pure 0

/-- `exec(path, argv)`. -/
def exec (path : List UInt8) (argv : List (List UInt8)) : M Int := do
  let ip ← o.namei path
  match ip with
  | none => pure (-1)
  | some ip => do
      o.ilock ip
      let (r, bytes) ← o.readi ip 0 ELFHDR
      if toUint r < ELFHDR then execBad o none ip
      else if (elfhdrOf bytes).magic ≠ ELF_MAGIC then execBad o none ip
      else do
        let pgdir ← o.setupkvm
        match pgdir with
        | none => execBad o none ip
        | some pgdir => do
            let sz ← execLoad o pgdir ip (elfhdrOf bytes).phnum (elfhdrOf bytes).phoff 0
            match sz with
            | none => execBad o (some pgdir) ip
            | some sz => do
                o.iunlockput ip
                execStack o pgdir ip sz path argv (elfhdrOf bytes).entry

end Exec

end Xv6

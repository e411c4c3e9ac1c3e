import Xv6.Kernel.Exec
import Xv6.Lib.Run

/-! # Physical memory and page tables

The allocator of `kalloc.c` and the page tables of `vm.c` on a byte-addressed memory. The free list
is linked through the free pages, and page directories and page tables are pages of the same memory.
A loop that does not end within the given number of rounds stops the run with `Stop.loop`; a
function returns if some number of rounds is enough. -/

namespace Xv6.Vm

open Lib

/-- Why a run stops. -/
inductive Stop
  | panic (msg : String)
  | loop

/-- The memory and the allocator. -/
structure Phys where
  mem : Nat → UInt8
  /-- `kmem.freelist`. -/
  freelist : Nat

/-- A computation on the memory. -/
abbrev VmM : Type → Type := Run Stop Phys

/-- `panic(msg)`. -/
def panic {α : Type} (msg : String) : VmM α := Run.stop (.panic msg)

/-- Fill a range of a memory with one byte. -/
def fill (f : Nat → UInt8) (a : Nat) (c : UInt8) (n : Nat) : Nat → UInt8 :=
  fun x => if a ≤ x ∧ x < a + n then c else f x

/-- The word at an address. -/
def load (a : Nat) : VmM Nat := do
  let s ← get
  pure (le32 s.mem a)

/-- Store bytes. -/
def store (a : Nat) (bytes : List UInt8) : VmM Unit :=
  modify fun s => { s with mem := put s.mem a bytes }

/-- Store a word. -/
def storeWord (a v : Nat) : VmM Unit := store a (bytes32 v)

/-- `memset`. -/
def memset (a : Nat) (c : UInt8) (n : Nat) : VmM Unit :=
  modify fun s => { s with mem := fill s.mem a c n }

/-- `memmove` of one page to another. -/
def movePage (dst src : Nat) : VmM Unit :=
  modify fun s => { s with
    mem := fun x => if dst ≤ x ∧ x < dst + PGSIZE then s.mem (src + (x - dst)) else s.mem x }

/-! ## `kalloc.c` -/

/-- `PHYSTOP`. -/
def PHYSTOP : Nat := 0x8d000000

/-- `kfree`. -/
def kfree (v : Nat) : VmM Unit :=
  if v % PGSIZE ≠ 0 ∨ v < 1024 * 1024 ∨ v ≥ PHYSTOP then panic "kfree"
  else do
    -- fill with junk to catch dangling refs
    memset v 1 PGSIZE
    modify fun s => { mem := put s.mem v (bytes32 s.freelist), freelist := v }

/-- `kalloc`. -/
def kalloc : VmM (Option Nat) := do
  let s ← get
  if s.freelist = 0 then pure none
  else do
    modify fun s => { s with freelist := le32 s.mem s.freelist }
    pure (some s.freelist)

/-! ## Page tables -/

/-- `PTEL_V`. -/
def PTEL_V : Nat := 0x100

/-- `PTEL_DEFAULT`. -/
def PTEL_DEFAULT : Nat := 0x001 ||| 0x010 ||| 0x020 ||| 0x040 ||| 0x100 ||| 0x004

/-- `PDX(va)`. -/
def pdx (va : Nat) : Nat := va / 4194304 % 1024

/-- `PTX(va)`. -/
def ptx (va : Nat) : Nat := va / 4096 % 1024

/-- `walkpgdir`: the address of the entry for a virtual address. -/
def walkpgdir (pgdir va : Nat) (create : Bool) : VmM (Option Nat) := do
  let pde ← load (pgdir + 4 * pdx va)
  if pde &&& PTEL_V ≠ 0 then pure (some (pteAddr pde + 4 * ptx va))
  else if create = false then pure none
  else do
    let r ← kalloc
    match r with
    | none => pure none
    | some pgtab => do
        memset pgtab 0 PGSIZE
        storeWord (pgdir + 4 * pdx va) (pgtab ||| PTEL_DEFAULT)
        pure (some (pgtab + 4 * ptx va))

/-- The loop of `mappages`. -/
def mappagesLoop (pgdir last perm : Nat) : (fuel a pa : Nat) → VmM Bool
  | 0, _, _ => Run.stop .loop
  | fuel + 1, a, pa => do
      let pte ← walkpgdir pgdir a true
      match pte with
      | none => pure false
      | some pte => do
          let v ← load pte
          if v &&& PTEL_V ≠ 0 then panic "remap"
          else do
            storeWord pte (pa ||| perm ||| PTEL_V)
            if a = last then pure true
            else
              mappagesLoop pgdir last perm fuel ((a + PGSIZE) % 4294967296)
                ((pa + PGSIZE) % 4294967296)

/-- `mappages`. -/
def mappages (fuel pgdir la size pa perm : Nat) : VmM Bool :=
  mappagesLoop pgdir (pgrounddown ((la + size + 4294967296 - 1) % 4294967296)) perm fuel
    (pgrounddown la) pa

/-- `setupkvm`. -/
def setupkvm : VmM (Option Nat) := do
  let r ← kalloc
  match r with
  | none => pure none
  | some pgdir => do
      memset pgdir 0 PGSIZE
      pure (some pgdir)

/-- The body of the loop of `deallocuvm`. -/
def deallocPage (pgdir a : Nat) : VmM Unit := do
  let pte ← walkpgdir pgdir a false
  match pte with
  | none => pure ()
  | some pte => do
      let v ← load pte
      if v &&& PTEL_V ≠ 0 then
        if pteAddr v = 0 then panic "kfree"
        else do
          kfree (pteAddr v)
          storeWord pte 0
      else pure ()

/-- The loop of `deallocuvm`. -/
def deallocuvmLoop (pgdir last : Nat) : (fuel a : Nat) → VmM Unit
  | 0, _ => Run.stop .loop
  | fuel + 1, a =>
      if a ≤ last then do
        deallocPage pgdir a
        deallocuvmLoop pgdir last fuel ((a + PGSIZE) % 4294967296)
      else pure ()

/-- `PGROUNDDOWN(sz - 1)` on a `uint`. -/
def lastPage (sz : Nat) : Nat := pgrounddown ((sz + 4294967296 - 1) % 4294967296)

/-- `deallocuvm`. -/
def deallocuvm (fuel pgdir oldsz newsz : Nat) : VmM Nat := do
  deallocuvmLoop pgdir (lastPage oldsz) fuel (pgroundup newsz)
  pure (if newsz < oldsz then newsz else oldsz)

/-- The loop of `allocuvm`; the result says whether there was enough memory. -/
def allocuvmLoop (fuel pgdir oldsz newsz : Nat) : (rounds a : Nat) → VmM Bool
  | 0, _ => Run.stop .loop
  | rounds + 1, a =>
      if a ≤ lastPage newsz then do
        let mem ← kalloc
        match mem with
        | none => do
            let _ ← deallocuvm fuel pgdir newsz oldsz
            pure false
        | some mem => do
            memset mem 0 PGSIZE
            -- the result of mappages is not looked at
            let _ ← mappages fuel pgdir a PGSIZE mem PTEL_DEFAULT
            allocuvmLoop fuel pgdir oldsz newsz rounds ((a + PGSIZE) % 4294967296)
      else pure true

/-- `allocuvm`. -/
def allocuvm (fuel pgdir oldsz newsz : Nat) : VmM Nat :=
  if newsz > USERTOP then pure 0
  else do
    let ok ← allocuvmLoop fuel pgdir oldsz newsz fuel (pgroundup oldsz)
    pure (if ok then (if newsz > oldsz then newsz else oldsz) else 0)

/-- The loop of `freevm` over `n` directory entries from `i` on. -/
def freevmLoop (pgdir : Nat) : (n i : Nat) → VmM Unit
  | 0, _ => pure ()
  | n + 1, i => do
      let v ← load (pgdir + 4 * i)
      (if v &&& PTEL_V ≠ 0 then kfree (pteAddr v) else pure ())
      freevmLoop pgdir n (i + 1)

/-- `freevm`. -/
def freevm (fuel pgdir : Nat) : VmM Unit :=
  if pgdir = 0 then panic "freevm: no pgdir"
  else do
    let _ ← deallocuvm fuel pgdir USERTOP 0
    freevmLoop pgdir 1024 0
    kfree pgdir

/-- The loop of `copyuvm` from address `i` on; `false` stands for `goto bad`. -/
def copyuvmLoop (fuel pgdir d sz : Nat) : (rounds i : Nat) → VmM Bool
  | 0, _ => Run.stop .loop
  | rounds + 1, i =>
      if i < sz then do
        let pte ← walkpgdir pgdir i false
        match pte with
        | none => panic "copyuvm: pte should exist\n"
        | some pte => do
            let v ← load pte
            if v &&& PTEL_V = 0 then panic "copyuvm: page not present\n"
            else do
              let mem ← kalloc
              match mem with
              | none => pure false
              | some mem => do
                  movePage mem (pteAddr v)
                  let ok ← mappages fuel d i PGSIZE mem PTEL_DEFAULT
                  if ok then copyuvmLoop fuel pgdir d sz rounds ((i + PGSIZE) % 4294967296)
                  else pure false
      else pure true

/-- `copyuvm`. -/
def copyuvm (fuel pgdir sz : Nat) : VmM (Option Nat) := do
  let d ← setupkvm
  match d with
  | none => pure none
  | some d => do
      let ok ← copyuvmLoop fuel pgdir d sz fuel 0
      if ok then pure (some d)
      else do
        freevm fuel d
        pure none

/-- The loop of `switchuvm`, which loads the TLB up to the first page that is not mapped. -/
def switchuvmLoop (pgdir : Nat) : (fuel va : Nat) → VmM Unit
  | 0, _ => Run.stop .loop
  | fuel + 1, va => do
      let pte ← walkpgdir pgdir va false
      match pte with
      | none => pure ()
      | some pte => do
          let v ← load pte
          if v = 0 then pure ()
          else switchuvmLoop pgdir fuel ((va + PGSIZE) % 4294967296)

/-- `switchuvm` of the process with the given page directory. -/
def switchuvm (fuel pgdir : Nat) : VmM Unit :=
  if pgdir = 0 then panic "switchuvm: no pgdir\n" else switchuvmLoop pgdir fuel 0

/-- `growproc(n)` of a process with the given page directory and size: the value returned and the
new size. -/
def growproc (fuel pgdir sz : Nat) (n : Int) : VmM (Int × Nat) :=
  if 0 < n then do
    let r ← allocuvm fuel pgdir sz (toUint (sz + n))
    if r = 0 then pure (-1, sz)
    else do
      switchuvm fuel pgdir
      pure (0, r)
  else if n < 0 then do
    let r ← deallocuvm fuel pgdir sz (toUint (sz + n))
    if r = 0 then pure (-1, sz)
    else do
      switchuvm fuel pgdir
      pure (0, r)
  else do
    switchuvm fuel pgdir
    pure (0, sz)

end Xv6.Vm

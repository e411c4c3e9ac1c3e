import Xv6.Mem.System

/-! # Every page has one owner

The invariant behind the allocation of physical pages: the free list, the page tables in memory and
the addresses in the kernel's data agree on who uses which page. -/

namespace Xv6.Mem

open Lib Run Vm

/-! ## The users of pages -/

/-- What the kernel's data point to pages for. `none` stands for `kpgdir`. -/
inductive Anchor
  | bootStack
  | kstack (q : Pid)
  | pgdir (q : Option Pid)
  | pipe
  deriving DecidableEq

/-- **What a page is used for**: a page that the kernel's data point to, the page table for the
`i`-th entry of a directory, or the user page at the `v`-th page of an address space. -/
inductive Use
  | anchor (x : Anchor)
  | table (q : Option Pid) (i : Nat)
  | user (q : Option Pid) (v : Nat)
  deriving DecidableEq

/-- The entry of the process table is in use. -/
def Sys.Used (s : Sys) (q : Pid) : Prop := (s.proc q).state ≠ .UNUSED

/-- The file is open and of type `FD_PIPE`. -/
def Sys.OpenPipe (s : Sys) (f : Fid) : Prop := (s.file f).ref ≠ 0 ∧ (s.file f).type = .pipe

/-- The kernel's data point to an address. -/
def Sys.Holds (s : Sys) : Anchor → Nat → Prop
  | .bootStack, a => s.bootStack = a
  | .kstack q, a => s.Used q ∧ (s.proc q).kstack = a
  | .pgdir none, a => s.kpgdir = a
  | .pgdir (some q), a => s.Used q ∧ (s.proc q).pgdir = a
  | .pipe, a => ∃ f, s.OpenPipe f ∧ (s.file f).pipe = a

/-- The valid entry of a directory or table points to an address. -/
def PointsTo (mem : Nat → UInt8) (a i b : Nat) : Prop :=
  le32 mem (a + 4 * i) &&& PTEL_V ≠ 0 ∧ pteAddr (le32 mem (a + 4 * i)) = b

/-- **The page at an address is in use.** -/
def Sys.InUse (s : Sys) : Use → Nat → Prop
  | .anchor x, a => s.Holds x a
  | .table q i, a => i < 1024 ∧ ∃ d, s.Holds (.pgdir q) d ∧ PointsTo s.phys.mem d i a
  | .user q v, a => v < 1048576 ∧ ∃ d t, s.Holds (.pgdir q) d ∧ PointsTo s.phys.mem d (v / 1024) t ∧
      PointsTo s.phys.mem t (v % 1024) a

/-- **Exclusive ownership of pages.** -/
structure Exclusive (e : KernelEnd) (s : Sys) : Prop where
  /-- The free list is finite and without duplicates, and runs through pages that are not in use. -/
  free : ∃ fl, FreeChain s.phys.mem s.phys.freelist fl ∧ fl.Nodup ∧
    ∀ p ∈ fl, e.page ≤ p ∧ p * PGSIZE < PHYSTOP ∧ ∀ u, ¬ s.InUse u (p * PGSIZE)
  /-- A page in use is a page of the allocator. -/
  range : ∀ u a, s.InUse u a → a % PGSIZE = 0 ∧ e.page * PGSIZE ≤ a ∧ a < PHYSTOP
  /-- A page in use has one use. -/
  once : ∀ u u' a, s.InUse u a → s.InUse u' a → u = u'
  /-- A pipe has one file for each end. -/
  ends : ∀ f f', s.OpenPipe f → s.OpenPipe f' → (s.file f).pipe = (s.file f').pipe →
    (s.file f).writable = (s.file f').writable → f = f'

/-! ## The invariant -/

/-- The owner of a page that the kernel's data point to. -/
def Anchor.owner : Anchor → Owner
  | .pgdir _ => .dir
  | _ => .held

/-- The files and the flags of their pipes. -/
structure FileInv (s : Sys) : Prop where
  closed : ∀ f, (s.file f).ref = 0 → (s.file f).type = .none
  flag : ∀ f, (s.file f).type = .pipe →
    (if (s.file f).writable then s.writeopen else s.readopen) (s.file f).pipe = true
  ends : ∀ f f', (s.file f).type = .pipe → (s.file f').type = .pipe →
    (s.file f).pipe = (s.file f').pipe → (s.file f).writable = (s.file f').writable → f = f'

/-- The address space of a process lies below its size; if `b` holds, it has all pages below it. -/
structure Space (b : Prop) (own : Nat → Owner) (x : Proc) : Prop where
  bounded : Bounded own (x.pgdir / 4096) (pagesOf x.sz)
  pos : 0 < x.sz
  le : x.sz ≤ USERTOP
  full : b → ∃ k, Shape own (x.pgdir / 4096) (pagesOf x.sz) k

theorem Space.same {b : Prop} {own own' : Nat → Owner} {x : Proc} (h : Space b own x)
    (hs : SameSpace own own' (x.pgdir / 4096)) : Space b own' x where
  bounded q v hq := h.bounded q v ((hs.page q v).mp hq)
  pos := h.pos
  le := h.le
  full hb := (h.full hb).imp fun _ hk => hk.same hs

/-- The address space with the directory `d`. -/
theorem Space.ofDir {b : Prop} {own : Nat → Owner} {x : Proc} {d : Nat} (hx : x.pgdir = d * 4096)
    (hb : Bounded own d (pagesOf x.sz)) (hpos : 0 < x.sz) (hle : x.sz ≤ USERTOP)
    (hfull : b → ∃ k, Shape own d (pagesOf x.sz) k) : Space b own x := by
  have hd : d = x.pgdir / 4096 := by omega
  subst hd
  exact ⟨hb, hpos, hle, hfull⟩

theorem Space.congr {b : Prop} {own : Nat → Owner} {x y : Proc} (h : Space b own x)
    (hpgdir : y.pgdir = x.pgdir) (hsz : y.sz = x.sz) : Space b own y := by
  obtain ⟨hb, hpos, hle, hfull⟩ := h
  rw [← hsz] at hb hpos hle hfull
  rw [← hpgdir] at hb hfull
  exact ⟨hb, hpos, hle, hfull⟩

/-- **The invariant.** `own` gives the owners of the pages and `role` what the kernel's data use them
for. -/
structure SysInv (e : KernelEnd) (b : Prop) (s : Sys) (own : Nat → Owner) (fl : List Nat)
    (role : Nat → Option Anchor) : Prop where
  owned : Owned s.phys own fl
  range : ∀ p, own p ≠ .none → e.page ≤ p
  holds : ∀ x a, s.Holds x a → a = a / 4096 * 4096 ∧ role (a / 4096) = some x
  kind : ∀ p x, role p = some x → own p = x.owner
  space : ∀ q, s.Used q → Space b own (s.proc q)
  files : FileInv s

section

variable {e : KernelEnd} {b : Prop} {s t : Sys} {own own' : Nat → Owner} {fl fl' : List Nat}
  {role role' : Nat → Option Anchor}

/-- The owner of a page of the kernel. -/
theorem SysInv.own_eq (h : SysInv e b s own fl role) {x : Anchor} {a : Nat} (ha : s.Holds x a) :
    own (a / 4096) = x.owner :=
  h.kind _ _ (h.holds x a ha).2

theorem Anchor.owner_ne_free (x : Anchor) : x.owner ≠ .free := by
  cases x <;> exact nofun

/-- Entries of a directory. -/
theorem PointsTo.of_dir {m : Phys} {d i a : Nat} (h : PointsTo m.mem (d * 4096) i a)
    (hm : Owned m own fl) (hd : own d = .dir) (hi : i < 1024) :
    ∃ t, a = t * 4096 ∧ own t = .tab d i := by
  obtain ⟨hv, he⟩ := h
  rcases hm.dir d i hd hi with ⟨t, ht, hentry⟩ | ⟨-, hentry⟩
  · refine ⟨t, ?_, ht⟩
    rw [entry] at hentry
    rw [← he, hentry, pteAddr_pteOf]
  · rw [entry] at hentry
    rw [hentry] at hv
    exact absurd rfl hv

/-- Entries of a table. -/
theorem PointsTo.of_tab {m : Phys} {t d i j a : Nat} (h : PointsTo m.mem (t * 4096) j a)
    (hm : Owned m own fl) (ht : own t = .tab d i) (hj : j < 1024) :
    ∃ q, a = q * 4096 ∧ own q = .page d (1024 * i + j) := by
  obtain ⟨hv, he⟩ := h
  rcases hm.tab t d i j ht hj with ⟨q, hq, hentry⟩ | ⟨-, hentry⟩
  · refine ⟨q, ?_, hq⟩
    rw [entry] at hentry
    rw [← he, hentry, pteAddr_pteOf]
  · rw [entry] at hentry
    rw [hentry] at hv
    exact absurd rfl hv

/-- The directory that a use belongs to has its role, and the page the owner of the use. -/
def OwnedFor (own : Nat → Owner) (role : Nat → Option Anchor) (p : Nat) : Use → Prop
  | .anchor x => role p = some x
  | .table q i => ∃ d, role d = some (.pgdir q) ∧ own p = .tab d i
  | .user q v => ∃ d, role d = some (.pgdir q) ∧ own p = .page d v

section

variable (h : SysInv e b s own fl role)

include h

/-- A page in use is owned for this use. -/
theorem SysInv.inUse {u : Use} {a : Nat} (ha : s.InUse u a) :
    ∃ p, a = p * 4096 ∧ OwnedFor own role p u := by
  cases u with
  | anchor x => exact ⟨a / 4096, h.holds x a ha⟩
  | table q i =>
      obtain ⟨hi, d, hd, hp⟩ := ha
      obtain ⟨halign, hrole⟩ := h.holds _ _ hd
      rw [halign] at hp
      obtain ⟨t, rfl, ht⟩ := hp.of_dir h.owned (h.own_eq hd) hi
      exact ⟨t, rfl, _, hrole, ht⟩
  | user q v =>
      obtain ⟨hv, d, t, hd, hp, hp'⟩ := ha
      obtain ⟨halign, hrole⟩ := h.holds _ _ hd
      rw [halign] at hp
      obtain ⟨t, rfl, ht⟩ := hp.of_dir h.owned (h.own_eq hd) (by omega)
      obtain ⟨q', rfl, hq'⟩ := hp'.of_tab h.owned ht (by omega)
      rw [show 1024 * (v / 1024) + v % 1024 = v by omega] at hq'
      exact ⟨q', rfl, _, hrole, hq'⟩

/-- A page that is owned for a use is not free. -/
theorem SysInv.ownedFor_ne {u : Use} {p : Nat}
    (hp : OwnedFor own role p u) : own p ≠ .free ∧ own p ≠ .none := by
  cases u with
  | anchor x =>
      rw [h.kind p x hp]
      cases x <;> exact ⟨nofun, nofun⟩
  | table q i =>
      obtain ⟨d, -, hown⟩ := hp
      rw [hown]
      exact ⟨nofun, nofun⟩
  | user q v =>
      obtain ⟨d, -, hown⟩ := hp
      rw [hown]
      exact ⟨nofun, nofun⟩

/-- A page is owned for one use. -/
theorem SysInv.ownedFor_unique {u u' : Use} {p : Nat}
    (hp : OwnedFor own role p u) (hp' : OwnedFor own role p u') : u = u' := by
  have hanchor : ∀ x o, role p = some x → own p = o → o = x.owner := fun x o hx ho =>
    ho.symm.trans (h.kind p x hx)
  cases u with
  | anchor x =>
      cases u' with
      | anchor y => rw [Option.some.inj (hp.symm.trans hp')]
      | table q i =>
          obtain ⟨d, -, hown⟩ := hp'
          have := hanchor x _ hp hown
          cases x <;> cases this
      | user q v =>
          obtain ⟨d, -, hown⟩ := hp'
          have := hanchor x _ hp hown
          cases x <;> cases this
  | table q i =>
      obtain ⟨d, hd, hown⟩ := hp
      cases u' with
      | anchor y =>
          have := hanchor y _ hp' hown
          cases y <;> cases this
      | table q' i' =>
          obtain ⟨d', hd', hown'⟩ := hp'
          obtain ⟨rfl, rfl⟩ := Owner.tab.inj (hown.symm.trans hown')
          rw [Anchor.pgdir.inj (Option.some.inj (hd.symm.trans hd'))]
      | user q' v =>
          obtain ⟨d', -, hown'⟩ := hp'
          cases hown.symm.trans hown'
  | user q v =>
      obtain ⟨d, hd, hown⟩ := hp
      cases u' with
      | anchor y =>
          have := hanchor y _ hp' hown
          cases y <;> cases this
      | table q' i =>
          obtain ⟨d', -, hown'⟩ := hp'
          cases hown.symm.trans hown'
      | user q' v' =>
          obtain ⟨d', hd', hown'⟩ := hp'
          obtain ⟨rfl, rfl⟩ := Owner.page.inj (hown.symm.trans hown')
          rw [Anchor.pgdir.inj (Option.some.inj (hd.symm.trans hd'))]

/-- **The invariant gives exclusive ownership.** -/
theorem SysInv.exclusive : Exclusive e s where
  free := by
    refine ⟨fl, h.owned.chain, h.owned.nodup, fun p hp => ?_⟩
    have hfree := (h.owned.free p).mp hp
    have hne : own p ≠ .none := by
      rw [hfree]
      exact nofun
    have hvalid := h.owned.valid p hne
    refine ⟨h.range p hne, by unfold PGSIZE PHYSTOP; omega, fun u hu => ?_⟩
    obtain ⟨q, hq, howned⟩ := h.inUse hu
    obtain rfl : p = q := by
      unfold PGSIZE at hq
      omega
    exact (h.ownedFor_ne howned).1 hfree
  range u a ha := by
    obtain ⟨p, rfl, howned⟩ := h.inUse ha
    have hne := (h.ownedFor_ne howned).2
    have hvalid := h.owned.valid p hne
    have hrange := h.range p hne
    unfold PGSIZE PHYSTOP
    omega
  once u u' a ha ha' := by
    obtain ⟨p, rfl, howned⟩ := h.inUse ha
    obtain ⟨q, hq, howned'⟩ := h.inUse ha'
    obtain rfl : p = q := by omega
    exact h.ownedFor_unique howned howned'
  ends f f' hf hf' := h.files.ends f f' hf.2 hf'.2

end

end

end Xv6.Mem

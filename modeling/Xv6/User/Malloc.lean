import Xv6.Lib.Blocks
import Xv6.Lib.Exec

/-! # The memory allocator of user programs

`umalloc.c`: the free blocks form a circular list in the order of their addresses, with the empty
block `base` in it and a roving pointer `freep` to one of them. Memory is seen as the headers at
all addresses; addresses and sizes are 32 bit wide. The memory obtained from `sbrk` and the blocks
handed out and not freed since are recorded beside it. -/

namespace Xv6.Umalloc

open Lib Chunk

/-- **A header**, `union header`: the next free block and the size of this one. -/
structure Header where
  ptr : Nat
  size : Nat

/-- `sizeof(Header)`. -/
def HEADER : Nat := 8

/-- A pointer to a header moved on by `n` headers. -/
def add (p n : Nat) : Nat := (p + HEADER * n) % 2 ^ 32

/-- A pointer to a header moved back by one header. -/
def pred (p : Nat) : Nat := (p + 2 ^ 32 - HEADER) % 2 ^ 32

/-- **The heap** of a program. -/
structure HeapState where
  mem : Nat → Header
  freep : Nat
  /-- The memory obtained from `sbrk`. -/
  regions : List Chunk
  /-- The end of the memory that the program has. -/
  top : Nat
  /-- The blocks handed out and not freed since, with their headers. -/
  live : List Chunk
  /-- The number of bytes asked for, by the address of the block. -/
  asked : Nat → Nat

/-! ## `free` -/

/-- Let the block at `a` be followed by the one at `q`, or make them one if they touch. -/
def join (m : Nat → Header) (a q : Nat) : Nat → Header :=
  if add a (m a).size = q then
    Function.update m a ⟨(m q).ptr, ((m a).size + (m q).size) % 2 ^ 32⟩
  else Function.update m a ⟨q, (m a).size⟩

/-- The test of the loop of `free`, and the one in its body that ends it where the list wraps. -/
def Stops (m : Nat → Header) (bp p : Nat) : Prop :=
  (p < bp ∧ bp < (m p).ptr) ∨ ((m p).ptr ≤ p ∧ (p < bp ∨ bp < (m p).ptr))

instance (m : Nat → Header) (bp p : Nat) : Decidable (Stops m bp p) :=
  inferInstanceAs (Decidable (_ ∨ _))

/-- The loop of `free`, of at most `fuel` rounds. -/
def place (m : Nat → Header) (bp : Nat) : Nat → Nat → Option Nat
  | 0, _ => none
  | fuel + 1, p => if Stops m bp p then some p else place m bp fuel (m p).ptr

/-- **`free`.** -/
def free (fuel : Nat) (s : HeapState) (ap : Nat) : Option HeapState :=
  let bp := pred ap
  (place s.mem bp fuel s.freep).map fun p =>
    { s with mem := join (join s.mem bp (s.mem p).ptr) p bp, freep := p }

/-! ## `malloc` -/

/-- `sbrk`, which behaves as documented: it answers `-1`, or the address of a fresh region above
all memory that the program has; the end of the region is an address, the new size of the
process. -/
def sbrk (s : HeapState) (n : Nat) : Option Nat → Option (HeapState × Nat)
  | none => some (s, 2 ^ 32 - 1)
  | some p => if s.top ≤ p ∧ p + n < 2 ^ 32 then some ({ s with top := p + n }, p) else none

/-- **`morecore`.** -/
def morecore (fuel : Nat) (s : HeapState) (nu : Nat) (answer : Option Nat) :
    Option (HeapState × Nat) :=
  let nu := if nu < 4096 then 4096 else nu
  match sbrk s (nu * HEADER % 2 ^ 32) answer with
  | none => none
  | some (s, p) =>
      if p = 2 ^ 32 - 1 then some (s, 0)
      else
        let s := { s with
          mem := Function.update s.mem p ⟨(s.mem p).ptr, nu⟩
          regions := ⟨p, nu⟩ :: s.regions }
        (free fuel s (add p 1)).map fun s => (s, s.freep)

/-- Take `nunits` from the free block at `p`, which follows the one at `prevp`: all of it, or its
tail. -/
def take (s : HeapState) (nunits prevp p : Nat) : HeapState × Nat :=
  if (s.mem p).size = nunits then
    ({ s with
        mem := Function.update s.mem prevp ⟨(s.mem p).ptr, (s.mem prevp).size⟩
        freep := prevp }, add p 1)
  else
    let m := Function.update s.mem p ⟨(s.mem p).ptr, (s.mem p).size - nunits⟩
    let q := add p (m p).size
    ({ s with mem := Function.update m q ⟨(m q).ptr, nunits⟩, freep := prevp }, add q 1)

/-- The loop of `malloc`, of at most `fuel` rounds; `answers` is what `sbrk` will answer. -/
def search (nunits : Nat) : Nat → HeapState → List (Option Nat) → Nat → Nat →
    Option (HeapState × Nat)
  | 0, _, _, _, _ => none
  | fuel + 1, s, answers, prevp, p =>
      if nunits ≤ (s.mem p).size then some (take s nunits prevp p)
      else if p = s.freep then
        match answers with
        | [] => none
        | answer :: answers =>
            match morecore fuel s nunits answer with
            | none => none
            | some (t, q) =>
                if q = 0 then some (t, 0) else search nunits fuel t answers q (t.mem q).ptr
      else search nunits fuel s answers p (s.mem p).ptr

/-- The number of units for a request. -/
def nunits (nbytes : Nat) : Nat := (nbytes + HEADER - 1) % 2 ^ 32 / HEADER + 1

/-- The first call of `malloc` makes a list of `base` alone. -/
def start (base : Nat) (s : HeapState) : HeapState :=
  if s.freep = 0 then
    { s with mem := Function.update s.mem base ⟨base, 0⟩, freep := base }
  else s

/-- **`malloc`.** -/
def malloc (base fuel : Nat) (s : HeapState) (nbytes : Nat) (answers : List (Option Nat)) :
    Option (HeapState × Nat) :=
  let s := start base s
  search (nunits nbytes) fuel s answers s.freep (s.mem s.freep).ptr

/-! ## Programs -/

/-- Record what `malloc` has returned. -/
def HeapState.handOut (s : HeapState) (ap nbytes : Nat) : HeapState :=
  if ap = 0 then s
  else
    { s with
      live := ⟨pred ap, (s.mem (pred ap)).size⟩ :: s.live
      asked := Function.update s.asked (pred ap) nbytes }

/-- What a program does. -/
inductive HeapEvent
  /-- It calls `malloc`. -/
  | malloc (nbytes : Nat)
  /-- It calls `free`. -/
  | free (ap : Nat)
  /-- It writes to the memory it has got. -/
  | write

/-- **The steps of a program**: it frees what it has got, and writes only there. -/
inductive HeapStep (base : Nat) (s : HeapState) : HeapEvent → HeapState → Prop
  | malloc {fuel nbytes ap : Nat} {answers : List (Option Nat)} {t : HeapState}
      (hbytes : nbytes < 2 ^ 28) (hmalloc : malloc base fuel s nbytes answers = some (t, ap)) :
      HeapStep base s (.malloc nbytes) (t.handOut ap nbytes)
  | free {fuel : Nat} {b : Chunk} {t : HeapState} (hb : b ∈ s.live)
      (hfree : free fuel s (add b.addr 1) = some t) :
      HeapStep base s (.free (add b.addr 1)) { t with live := s.live.erase b }
  | write {m : Nat → Header} (hlive : s.live ≠ [])
      (hm : ∀ a, (∀ b ∈ s.live, a ≤ b.addr ∨ b.stop HEADER ≤ a) → m a = s.mem a) :
      HeapStep base s .write { s with mem := m }

/-- The heap of a program before its first call; `base` lies in its memory. -/
def HeapState.new (mem : Nat → Header) (top : Nat) : HeapState where
  mem := mem
  freep := 0
  regions := []
  top := top
  live := []
  asked _ := 0

/-! ## Circular lists of blocks -/

/-- The address of the first block of a list that ends before `z`. -/
def first : List Chunk → Nat → Nat
  | [], z => z
  | b :: _, _ => b.addr

/-- **The headers of a list of blocks**: each one leads to the next, the last one to `z`. -/
def Linked (m : Nat → Header) : List Chunk → Nat → Prop
  | [], _ => True
  | b :: l, z => m b.addr = ⟨first l z, b.size⟩ ∧ Linked m l z

theorem first_append (l k : List Chunk) (z : Nat) : first (l ++ k) z = first l (first k z) := by
  cases l <;> rfl

variable {m : Nat → Header} {l k : List Chunk}

theorem linked_append {z : Nat} : Linked m (l ++ k) z ↔ Linked m l (first k z) ∧ Linked m k z := by
  induction l with
  | nil => simp [Linked]
  | cons b l ih => simp [Linked, ih, first_append, and_assoc]

/-- Only the headers of the blocks matter. -/
theorem Linked.congr {m m' : Nat → Header} {l : List Chunk} {z : Nat} (h : Linked m l z)
    (heq : ∀ b ∈ l, m' b.addr = m b.addr) : Linked m' l z := by
  induction l with
  | nil => trivial
  | cons b l ih =>
      refine ⟨?_, ih h.2 fun c hc => heq c (.tail _ hc)⟩
      rw [heq b List.mem_cons_self]
      exact h.1

theorem Linked.header {b : Chunk} {z : Nat} (h : Linked m (l ++ b :: k) z) :
    m b.addr = ⟨first k z, b.size⟩ :=
  (linked_append.mp h).2.1

/-- A circular list can be walked from any of its blocks. -/
theorem Linked.rotate {b : Chunk} {z : Nat} (h : Linked m (l ++ b :: k) z)
    (hz : first (l ++ b :: k) z = z) :
    Linked m (b :: k ++ l) b.addr := by
  obtain ⟨hl, hk⟩ := linked_append.mp h
  have hfirst : first l b.addr = z := by
    rw [first_append] at hz
    exact hz
  exact linked_append.mpr ⟨by rw [hfirst]; exact hk, hl⟩

end Xv6.Umalloc

import Xv6.Kernel.Param

/-! # The buffer cache

`bio.c` and the disk requests of `ide.c`: a fixed array of buffers threaded on a doubly linked list
through `bcache.head`, most recently used first. Each function below is the part of the C function
that runs in one critical section of `bcache.lock` (or of `idelock`). -/

namespace Xv6.Bio

open Lib

/-- `struct buf`: the three state flags, the sector it holds and its contents. -/
structure Buf where
  /-- `B_BUSY`: the buffer is locked by some process. -/
  busy : Bool
  /-- `B_VALID`: the buffer has been read from disk. -/
  valid : Bool
  /-- `B_DIRTY`: the buffer needs to be written to disk. -/
  dirty : Bool
  dev : Nat
  sector : Nat
  data : Block

/-- The index of a buffer in `bcache.buf`. -/
abbrev BufId : Type := Fin NBUF

instance : LawfulBEq BufId := inferInstance

/-- A node of the list: a buffer, or `none` for `bcache.head`. -/
abbrev Link : Type := Option BufId

/-- `bcache`: the buffers and the `next` and `prev` fields of the list's nodes. -/
structure Bcache where
  buf : BufId → Buf
  next : Link → Link
  prev : Link → Link

namespace Bcache

/-- Change one buffer. -/
def setBuf (c : Bcache) (b : BufId) (x : Buf) : Bcache :=
  { c with buf := Function.update c.buf b x }

@[simp] theorem setBuf_buf_self (c : Bcache) (b : BufId) (x : Buf) : (c.setBuf b x).buf b = x := by
  simp only [setBuf, Function.update_self]

theorem setBuf_buf_of_ne (c : Bcache) {b b' : BufId} (x : Buf) (h : b' ≠ b) :
    (c.setBuf b x).buf b' = c.buf b' := by
  simp only [setBuf, Function.update_of_ne h]

/-- Put a node that is on no list first: `b->next = head.next; b->prev = &head;
head.next->prev = b; head.next = b`. -/
def linkFirst (c : Bcache) (b : BufId) : Bcache :=
  let first := c.next none
  { c with
    next := Function.update (Function.update c.next (some b) first) none (some b)
    prev := Function.update (Function.update c.prev (some b) none) first (some b) }

/-- Take a node off the list: `b->next->prev = b->prev; b->prev->next = b->next`. -/
def unlinkBuf (c : Bcache) (b : BufId) : Bcache :=
  { c with
    next := Function.update c.next (c.prev (some b)) (c.next (some b))
    prev := Function.update c.prev (c.next (some b)) (c.prev (some b)) }

@[simp] theorem linkFirst_buf (c : Bcache) (b : BufId) : (c.linkFirst b).buf = c.buf := rfl

@[simp] theorem unlinkBuf_buf (c : Bcache) (b : BufId) : (c.unlinkBuf b).buf = c.buf := rfl

end Bcache

/-- The cache as the loader leaves it, before `binit`. -/
def bss : Bcache where
  buf := fun _ => ⟨false, false, false, 0, 0, Bytes.zero⟩
  next := fun _ => none
  prev := fun _ => none

/-- `binit`: every buffer is put first in turn, with device number `-1`. -/
def binit : Bcache :=
  (List.finRange NBUF).foldl
    (fun c b => (c.setBuf b { c.buf b with dev := 4294967295 }).linkFirst b) bss

/-- The loop `for(b = head.next; b != &head; b = b->next)` of `bget`, looking for the sector. The
list has `NBUF` buffers, so the first argument bounds the number of nodes visited. -/
def findCached (c : Bcache) (dev sector : Nat) : Nat → Link → Option BufId
  | 0, _ => none
  | _ + 1, none => none
  | n + 1, some b =>
      if (c.buf b).dev = dev ∧ (c.buf b).sector = sector then some b
      else findCached c dev sector n (c.next (some b))

/-- The loop `for(b = head.prev; b != &head; b = b->prev)` of `bget`, looking for a buffer that is
not `B_BUSY`. -/
def findFree (c : Bcache) : Nat → Link → Option BufId
  | 0, _ => none
  | _ + 1, none => none
  | n + 1, some b => if (c.buf b).busy then findFree c n (c.prev (some b)) else some b

/-- How one pass of `bget` from its label `loop` ends. -/
inductive BgetResult
  /-- The buffer is locked for the caller. -/
  | got (b : BufId) (c : Bcache)
  /-- The sector is cached in a busy buffer: `sleep(b, &bcache.lock)`. -/
  | sleep (b : BufId)
  /-- `panic("bget: no buffers")`. -/
  | noBuffers

/-- One pass of `bget`, from its label `loop`. -/
def bget (c : Bcache) (dev sector : Nat) : BgetResult :=
  match findCached c dev sector (NBUF + 1) (c.next none) with
  | some b =>
      if (c.buf b).busy then .sleep b
      else .got b (c.setBuf b { c.buf b with busy := true })
  | none =>
      match findFree c (NBUF + 1) (c.prev none) with
      | some b =>
          .got b (c.setBuf b ⟨true, false, false, dev, sector, (c.buf b).data⟩)
      | none => .noBuffers

/-- `iderw` on the buffer `b`: write it to its sector when `B_DIRTY` is set, else read the sector,
and leave it valid and clean. `none` stands for one of its two panics. -/
def iderw (c : Bcache) (disk : Nat → Block) (b : BufId) : Option (Bcache × (Nat → Block)) :=
  let x := c.buf b
  if !x.busy then none
  else if x.valid && !x.dirty then none
  else if x.dirty then
    some (c.setBuf b { x with valid := true, dirty := false },
      Function.update disk x.sector x.data)
  else some (c.setBuf b { x with valid := true, dirty := false, data := disk x.sector }, disk)

/-- `brelse`: put the buffer first on the list and clear `B_BUSY`. The call of `wakeup` is commented
out in the source. `none` stands for `panic("brelse")`. -/
def brelse (c : Bcache) (b : BufId) : Option Bcache :=
  if !(c.buf b).busy then none
  else some (((c.unlinkBuf b).linkFirst b).setBuf b { c.buf b with busy := false })

/-! ## What the critical sections do to the busy flags -/

variable {b : BufId} {c c' : Bcache}

/-- The buffer found is the one whose sector was asked for. -/
theorem findCached_spec {c : Bcache} {dev sector n : Nat} {l : Link}
    (h : findCached c dev sector n l = some b) :
    (c.buf b).dev = dev ∧ (c.buf b).sector = sector := by
  induction n generalizing l with
  | zero => simp [findCached] at h
  | succ n ih =>
      cases l with
      | none => simp [findCached] at h
      | some b' =>
          rw [findCached] at h
          split at h
          · rename_i hmatch
            obtain rfl : b' = b := by simpa using h
            exact hmatch
          · exact ih h

/-- The buffer found for recycling is not busy. -/
theorem findFree_spec {c : Bcache} {n : Nat} {l : Link} (h : findFree c n l = some b) :
    (c.buf b).busy = false := by
  induction n generalizing l with
  | zero => simp [findFree] at h
  | succ n ih =>
      cases l with
      | none => simp [findFree] at h
      | some b' =>
          rw [findFree] at h
          split at h
          · exact ih h
          · rename_i hfree
            obtain rfl : b' = b := by simpa using h
            simpa using hfree

/-- A caller of `bget` that is put to sleep found the sector in a busy buffer. -/
theorem bget_sleep {c : Bcache} {dev sector : Nat} (h : bget c dev sector = .sleep b) :
    (c.buf b).busy = true ∧ (c.buf b).dev = dev ∧ (c.buf b).sector = sector := by
  rw [bget] at h
  split at h
  · rename_i b' hfound
    split at h
    · rename_i hbusy
      obtain rfl : b' = b := by simpa using h
      exact ⟨hbusy, findCached_spec hfound⟩
    · cases h
  · split at h <;> cases h

/-- A buffer that `bget` returns was not busy and becomes so; the others are unchanged. -/
theorem bget_got {dev sector : Nat} (h : bget c dev sector = .got b c') :
    (c.buf b).busy = false ∧ (c'.buf b).busy = true ∧ ∀ b', b' ≠ b → c'.buf b' = c.buf b' := by
  rw [bget] at h
  split at h
  · rename_i b₁ hfound
    split at h
    · cases h
    · rename_i hbusy
      obtain ⟨rfl, rfl⟩ : b₁ = b ∧ _ = c' := by simpa using h
      exact ⟨by simpa using hbusy, by simp, fun b' hb' => c.setBuf_buf_of_ne _ hb'⟩
  · split at h
    · rename_i b₁ hfree
      obtain ⟨rfl, rfl⟩ : b₁ = b ∧ _ = c' := by simpa using h
      exact ⟨findFree_spec hfree, by simp, fun b' hb' => c.setBuf_buf_of_ne _ hb'⟩
    · cases h

/-- A disk request leaves every busy flag as it is. -/
theorem iderw_busy {disk disk' : Nat → Block} (h : iderw c disk b = some (c', disk')) (b' : BufId) :
    (c'.buf b').busy = (c.buf b').busy := by
  simp only [iderw] at h
  split at h
  · cases h
  · split at h
    · cases h
    · split at h <;>
      · obtain ⟨rfl, -⟩ : _ = c' ∧ _ = disk' := by simpa using h
        by_cases hb : b' = b
        · subst hb; simp
        · rw [c.setBuf_buf_of_ne _ hb]

/-- `brelse` clears the busy flag of its buffer, which was set, and keeps the others. -/
theorem brelse_busy (h : brelse c b = some c') :
    (c.buf b).busy = true ∧ (c'.buf b).busy = false ∧ ∀ b', b' ≠ b → c'.buf b' = c.buf b' := by
  rw [brelse] at h
  split at h
  · cases h
  · rename_i hbusy
    obtain rfl : _ = c' := by simpa using h
    refine ⟨by simpa using hbusy, by simp, fun b' hb' => ?_⟩
    rw [Bcache.setBuf_buf_of_ne _ _ hb', Bcache.linkFirst_buf, Bcache.unlinkBuf_buf]

end Xv6.Bio

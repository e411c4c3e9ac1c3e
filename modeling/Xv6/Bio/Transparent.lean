import Xv6.Bio.Wakeup
import Xv6.Lib.Links
import Mathlib.Data.Fintype.Card
import Mathlib.Tactic.FinCases

/-! # The cache is transparent

The block operations of `fs.c` on the buffer cache: a process reads a sector of the root device,
may change the data of a buffer it holds, calls `bwrite` after that, and releases only buffers it
has not changed since. Beside the system the flat disk is recorded that a machine without a cache
would have: the initial disk, changed by every `bwrite` and by nothing else. -/

namespace Xv6.Bio

open Lib

open Function (update update_apply update_idem update_of_ne update_self)

/-- **The system with its record**: the buffers changed since they were read or written, the flat
disk, and the sector that each process asked for last. -/
structure FlatSys where
  sys : Sys
  touched : BufId → Bool
  flat : Nat → Block
  asked : Nat → Nat

/-- The steps of the block operations. -/
inductive BlockEvent
  /-- The process calls `bread(ROOTDEV, sector)`, the only device there is. -/
  | bread (p sector : Nat)
  /-- The process runs `bget` from its label `loop` to its return or to its `sleep`. -/
  | bget (p : Nat)
  /-- `bread` tests `B_VALID`, reads the sector if need be, and returns the buffer. -/
  | fill (p : Nat)
  /-- The process changes the data of a buffer it holds. -/
  | modify (p : Nat) (b : BufId) (data : Block)
  /-- The process calls `bwrite`. -/
  | bwrite (p : Nat) (b : BufId)
  /-- The process calls `brelse`. -/
  | brelse (p : Nat) (b : BufId)
  /-- Another process kills the process. -/
  | kill (p : Nat)

namespace FlatSys

/-- The step of an event. -/
def step (s : FlatSys) : BlockEvent → Option FlatSys
  | .bread p sector =>
      (Bio.step s.sys (.bread p ROOTDEV sector)).map fun t =>
        { s with sys := t, asked := update s.asked p sector }
  | .bget p => (Bio.step s.sys (.bget p)).map fun t => { s with sys := t }
  | .fill p => (Bio.step s.sys (.fill p)).map fun t => { s with sys := t }
  | .kill p => (Bio.step s.sys (.kill p)).map fun t => { s with sys := t }
  | .modify p b data =>
      if s.sys.panicked = none ∧ (s.sys.proc p).state = .RUNNABLE ∧ (s.sys.proc p).pc = .outside ∧
          b ∈ (s.sys.proc p).held then
        some { s with
          sys := { s.sys with
            cache := s.sys.cache.setBuf b { s.sys.cache.buf b with data := data } }
          touched := update s.touched b true }
      else none
  | .bwrite p b =>
      (Bio.step s.sys (.bwrite p b (s.sys.cache.buf b).data)).map fun t =>
        { s with
          sys := t
          touched := update s.touched b false
          flat := update s.flat (s.sys.cache.buf b).sector (s.sys.cache.buf b).data }
  | .brelse p b =>
      if s.touched b then none
      else (Bio.step s.sys (.brelse p b)).map fun t => { s with sys := t }

/-- The system after `binit`. -/
def boot (disk : Nat → Block) : FlatSys := ⟨Bio.boot disk, fun _ => false, disk, fun _ => 0⟩

end FlatSys

/-! ## The functions of the cache -/

/-- The list of the cache goes through all buffers. -/
def Threaded (c : Bcache) : Prop := ∃ l, Linked c.next c.prev l ∧ ∀ b, b ∈ l

/-- `binit` puts each buffer before those it put on the list earlier. -/
theorem linked_binit : Linked binit.next binit.prev (List.finRange NBUF).reverse := by
  refine ⟨by decide, ?_, ?_⟩
  · exact ⟨rfl, rfl, rfl, rfl, rfl, rfl, rfl, rfl, rfl, rfl, rfl⟩
  · exact ⟨rfl, rfl, rfl, rfl, rfl, rfl, rfl, rfl, rfl, rfl, rfl⟩

theorem mem_finRange_reverse (b : BufId) : b ∈ (List.finRange NBUF).reverse :=
  List.mem_reverse.mpr (List.mem_finRange b)

theorem threaded_binit : Threaded binit :=
  ⟨(List.finRange NBUF).reverse, linked_binit, mem_finRange_reverse⟩

/-- A list of buffers without repetition is no longer than the loops of `bget` can follow. -/
theorem length_lt_of_nodup {l : List BufId} (h : l.Nodup) : l.length < NBUF + 1 := by
  have hcard := List.Nodup.length_le_card h
  rw [Fintype.card_fin] at hcard
  omega

variable {c : Bcache} {b : BufId} {p : Nat} {disk : Nat → Block} {s : FlatSys}

/-- A search that finds nothing has looked at all buffers on its way. -/
theorem findCached_none {dev sector n : Nat} {a : Link} {l : List BufId}
    (hl : Leads c.next a l none) (hn : l.length < n)
    (h : findCached c dev sector n (c.next a) = none) :
    ∀ b ∈ l, ¬ ((c.buf b).dev = dev ∧ (c.buf b).sector = sector) := by
  induction l generalizing a n with
  | nil => exact fun b hb => absurd hb List.not_mem_nil
  | cons b l ih =>
      obtain ⟨n, rfl⟩ : ∃ m, n = m + 1 := ⟨n - 1, by omega⟩
      rw [hl.1, findCached] at h
      split at h
      · cases h
      · rename_i hb
        intro b' hb'
        rcases List.mem_cons.mp hb' with rfl | hmem
        · exact hb
        · exact ih hl.2 (by simpa using hn) h b' hmem

/-- How `bget` gets a buffer: from the cache, or by recycling one when the sector is not cached. -/
theorem bget_got_cases {c c' : Bcache} {dev sector : Nat} (hc : Threaded c)
    (h : bget c dev sector = .got b c') :
    (c.buf b).busy = false ∧
      (((c.buf b).dev = dev ∧ (c.buf b).sector = sector ∧
          c' = c.setBuf b { c.buf b with busy := true }) ∨
        ((∀ b', ¬ ((c.buf b').dev = dev ∧ (c.buf b').sector = sector)) ∧
          c' = c.setBuf b ⟨true, false, false, dev, sector, (c.buf b).data⟩)) := by
  rw [bget] at h
  split at h
  · rename_i b₁ hfound
    split at h
    · cases h
    · rename_i hbusy
      obtain ⟨rfl, rfl⟩ : b₁ = b ∧ _ = c' := by simpa using h
      obtain ⟨hdev, hsector⟩ := findCached_spec hfound
      exact ⟨by simpa using hbusy, .inl ⟨hdev, hsector, rfl⟩⟩
  · rename_i hnone
    split at h
    · rename_i b₁ hfree
      obtain ⟨rfl, rfl⟩ : b₁ = b ∧ _ = c' := by simpa using h
      obtain ⟨l, hl, hall⟩ := hc
      have hlen := length_lt_of_nodup hl.nodup
      exact ⟨findFree_spec hfree, .inr ⟨fun b' => findCached_none hl.next hlen hnone b' (hall b'),
        rfl⟩⟩
    · cases h

theorem Threaded.brelse {c c' : Bcache} (hc : Threaded c) (h : brelse c b = some c') :
    Threaded c' := by
  rw [Bio.brelse] at h
  split at h
  · cases h
  · obtain rfl : _ = c' := by simpa using h
    obtain ⟨l, hl, hall⟩ := hc
    obtain ⟨l₁, l₂, rfl⟩ := List.append_of_mem (hall b)
    have hb : b ∉ l₁ ++ l₂ := fun hmem => by
      have := List.nodup_middle.mp hl.nodup
      exact (List.nodup_cons.mp this).1 hmem
    refine ⟨b :: (l₁ ++ l₂), hl.unlink.linkFirst hb, fun b' => ?_⟩
    have := hall b'
    simp only [List.mem_append, List.mem_cons] at this ⊢
    tauto

/-! ## The invariant -/

/-- The process holds the buffer: `bread` has given it to the process, or is about to. -/
def Holds (s : Sys) (p : Nat) (b : BufId) : Prop :=
  b ∈ (s.proc p).held ∨ (s.proc p).pc = .returned b

/-- **Who holds which buffer.** -/
structure Holders (s : Sys) : Prop where
  busy : ∀ p b, Holds s p b → (s.cache.buf b).busy = true
  excl : ∀ p q b, Holds s p b → Holds s q b → p = q
  once : ∀ p, (s.proc p).held.Nodup ∧ ∀ b, (s.proc p).pc = .returned b → b ∉ (s.proc p).held

/-- **The invariant of the cache.** -/
structure Transparent (s : FlatSys) : Prop where
  threaded : Threaded s.sys.cache
  held : Holders s.sys
  /-- A buffer is one of the root device, or has not been used yet. -/
  dev : ∀ b, (s.sys.cache.buf b).dev = ROOTDEV ∨
    ((s.sys.cache.buf b).dev = 4294967295 ∧ (s.sys.cache.buf b).valid = false ∧
      (s.sys.cache.buf b).busy = false)
  uniq : ∀ b b', (s.sys.cache.buf b).dev = ROOTDEV → (s.sys.cache.buf b').dev = ROOTDEV →
    (s.sys.cache.buf b).sector = (s.sys.cache.buf b').sector → b = b'
  clean : ∀ b, (s.sys.cache.buf b).dirty = false
  data : ∀ b, (s.sys.cache.buf b).valid = true → s.touched b = false →
    (s.sys.cache.buf b).data = s.sys.disk (s.sys.cache.buf b).sector
  /-- Only a process that has got the buffer from `bread` changes it. -/
  touched : ∀ b, s.touched b = true → ∃ p, b ∈ (s.sys.proc p).held
  flat : s.flat = s.sys.disk
  loop : ∀ p dev sector, (s.sys.proc p).pc = .loop dev sector → dev = ROOTDEV ∧ sector = s.asked p
  returned : ∀ p b, (s.sys.proc p).pc = .returned b →
    (s.sys.cache.buf b).dev = ROOTDEV ∧ (s.sys.cache.buf b).sector = s.asked p
  panicked : s.sys.panicked = none ∨ s.sys.panicked = some "bget: no buffers"

theorem transparent_boot (disk : Nat → Block) : Transparent (FlatSys.boot disk) := by
  have hbuf : ∀ b, binit.buf b = ⟨false, false, false, 4294967295, 0, Bytes.zero⟩ := by
    intro b
    fin_cases b <;> rfl
  have hempty : ∀ p b, ¬ Holds (FlatSys.boot disk).sys p b := by
    rintro p b (hmem | hpc)
    · exact List.not_mem_nil hmem
    · cases hpc
  constructor
  · exact threaded_binit
  · exact ⟨fun p b h => absurd h (hempty p b), fun p q b h => absurd h (hempty p b),
      fun p => ⟨List.nodup_nil, fun b _ => List.not_mem_nil⟩⟩
  · intro b
    right
    show (binit.buf b).dev = _ ∧ (binit.buf b).valid = _ ∧ (binit.buf b).busy = _
    rw [hbuf]
    exact ⟨rfl, rfl, rfl⟩
  · intro b b' hb
    have hb' : (binit.buf b).dev = ROOTDEV := hb
    rw [hbuf] at hb'
    exact absurd hb' (by decide)
  · intro b
    show (binit.buf b).dirty = false
    rw [hbuf]
  · intro b hb
    have hb' : (binit.buf b).valid = true := hb
    rw [hbuf] at hb'
    cases hb'
  · intro b hb
    cases hb
  · rfl
  · intro p dev sector hpc
    cases hpc
  · intro p b hpc
    cases hpc
  · exact .inl rfl

/-! ## What the steps do -/

/-- The cache after the sector of a buffer has been read from the disk. -/
def Bcache.read (c : Bcache) (disk : Nat → Block) (b : BufId) : Bcache :=
  c.setBuf b { c.buf b with valid := true, dirty := false, data := disk (c.buf b).sector }

/-- The process after `bread` has given it the buffer. -/
def Proc.gets (x : Proc) (b : BufId) : Proc := { x with pc := .outside, held := b :: x.held }

/-- The process after `bget` has found the buffer for it. -/
def Proc.found (x : Proc) (b : BufId) : Proc := { resume x with pc := .returned b }

/-- The process after `brelse`. -/
def Proc.drops (x : Proc) (b : BufId) : Proc := { x with held := x.held.erase b }

theorem step_bread {s t : Sys} {p dev sector : Nat} (h : step s (.bread p dev sector) = some t) :
    (s.proc p).pc = .outside ∧ t = s.setProc p { s.proc p with pc := .loop dev sector } := by
  simp only [step] at h
  split at h
  · cases h
  · split at h
    · rename_i hp
      exact ⟨hp.2, (Option.some.inj h).symm⟩
    · cases h

theorem step_kill {s t : Sys} (h : step s (.kill p) = some t) :
    t = s.setProc p { s.proc p with state := .RUNNABLE } := by
  simp only [step] at h
  split at h
  · cases h
  · split at h
    · exact (Option.some.inj h).symm
    · cases h

theorem step_bget {s t : Sys} (h : step s (.bget p) = some t) :
    ∃ dev sector, (s.proc p).pc = .loop dev sector ∧
      ((∃ b c, bget s.cache dev sector = .got b c ∧
          t = { s with cache := c }.setProc p ((s.proc p).found b)) ∨
        (∃ b, t = s.setProc p (sleep (resume (s.proc p)) b)) ∨
        t = { s with panicked := some "bget: no buffers" }) := by
  simp only [step] at h
  split at h
  · cases h
  · split at h
    · rename_i dev sector hpc
      refine ⟨dev, sector, hpc, ?_⟩
      split at h
      · split at h
        · rename_i b c hgot
          exact .inl ⟨b, c, hgot, (Option.some.inj h).symm⟩
        · rename_i b hsleep
          exact .inr (.inl ⟨b, (Option.some.inj h).symm⟩)
        · exact .inr (.inr (Option.some.inj h).symm)
      · cases h
    · cases h

theorem iderw_of_invalid (hbusy : (c.buf b).busy = true) (hvalid : (c.buf b).valid = false)
    (hclean : (c.buf b).dirty = false) :
    iderw c disk b = some (c.read disk b, disk) := by
  simp [iderw, Bcache.read, hbusy, hvalid, hclean]

theorem iderw_of_dirty (hbusy : (c.buf b).busy = true) (hdirty : (c.buf b).dirty = true) :
    iderw c disk b = some (c.setBuf b { c.buf b with valid := true, dirty := false },
      update disk (c.buf b).sector (c.buf b).data) := by
  simp [iderw, hbusy, hdirty]

/-- The end of `bread` on a buffer that is held and clean. -/
theorem step_fill {s t : Sys} (h : step s (.fill p) = some t)
    (hheld : ∀ b, (s.proc p).pc = .returned b →
      (s.cache.buf b).busy = true ∧ (s.cache.buf b).dirty = false) :
    ∃ b, (s.proc p).pc = .returned b ∧
      (((s.cache.buf b).valid = true ∧
          t = s.setProc p ((s.proc p).gets b)) ∨
        ((s.cache.buf b).valid = false ∧
          t = { s with cache := s.cache.read s.disk b }.setProc p ((s.proc p).gets b))) := by
  simp only [step] at h
  split at h
  · cases h
  · split at h
    · rename_i b hpc
      obtain ⟨hbusy, hclean⟩ := hheld b hpc
      refine ⟨b, hpc, ?_⟩
      split at h
      · rename_i hvalid
        exact .inl ⟨hvalid, (Option.some.inj h).symm⟩
      · rename_i hvalid
        rw [Bool.not_eq_true] at hvalid
        rw [iderw_of_invalid hbusy hvalid hclean] at h
        exact .inr ⟨hvalid, (Option.some.inj h).symm⟩
    · cases h

/-- `bwrite` of a buffer that is held. -/
theorem step_bwrite {s t : Sys} (h : step s (.bwrite p b (s.cache.buf b).data) = some t)
    (hheld : b ∈ (s.proc p).held → (s.cache.buf b).busy = true) :
    b ∈ (s.proc p).held ∧
      t = { s with
        cache := s.cache.setBuf b { s.cache.buf b with valid := true, dirty := false }
        disk := update s.disk (s.cache.buf b).sector (s.cache.buf b).data } := by
  simp only [step] at h
  split at h
  · cases h
  · split at h
    · rename_i hp
      have hbusy := hheld hp.2.2
      refine ⟨hp.2.2, ?_⟩
      rw [if_pos hbusy, iderw_of_dirty (by simpa using hbusy) (by simp)] at h
      have ht := (Option.some.inj h).symm
      simpa [Bcache.setBuf, update_idem] using ht
    · cases h

theorem step_brelse_held {s t : Sys} (h : step s (.brelse p b) = some t)
    (hheld : b ∈ (s.proc p).held → (s.cache.buf b).busy = true) :
    b ∈ (s.proc p).held ∧ (s.proc p).pc = .outside ∧ ∃ c, brelse s.cache b = some c ∧
      t = { s with cache := c }.setProc p ((s.proc p).drops b) := by
  simp only [step] at h
  split at h
  · cases h
  · split at h
    · rename_i hp
      refine ⟨hp.2.2, hp.2.1, ?_⟩
      split at h
      · rename_i c hc
        exact ⟨c, hc, (Option.some.inj h).symm⟩
      · rename_i hnone
        simp [brelse, hheld hp.2.2] at hnone
    · cases h

/-! ## The steps keep the invariant -/

theorem Bcache.buf_setBuf (c : Bcache) (b : BufId) (x : Buf) (b' : BufId) :
    (c.setBuf b x).buf b' = if b' = b then x else c.buf b' :=
  update_apply ..

theorem Sys.proc_setProc (s : Sys) (p : Nat) (x : Proc) (q : Nat) :
    (s.setProc p x).proc q = if q = p then x else s.proc q :=
  update_apply ..

/-- A step after which no process holds a buffer that it did not hold before. -/
theorem Holders.mono {s t : Sys} (h : Holders s) (hsub : ∀ p b, Holds t p b → Holds s p b)
    (hbusy : ∀ p b, Holds t p b → (s.cache.buf b).busy = true → (t.cache.buf b).busy = true)
    (honce : ∀ p, (t.proc p).held.Nodup ∧ ∀ b, (t.proc p).pc = .returned b → b ∉ (t.proc p).held) :
    Holders t :=
  ⟨fun p b hb => hbusy p b hb (h.busy p b (hsub p b hb)),
    fun p q b hp hq => h.excl p q b (hsub p b hp) (hsub q b hq), honce⟩

/-- The processes after one of them has changed. -/
theorem holds_setProc {s : Sys} {p q : Nat} {x : Proc} :
    Holds (s.setProc p x) q b ↔
      if q = p then b ∈ x.held ∨ x.pc = .returned b else Holds s q b := by
  by_cases hq : q = p
  · rw [if_pos hq, hq, Holds, Sys.setProc_proc_self]
  · rw [if_neg hq, Holds, Sys.setProc_proc_of_ne _ _ hq]
    rfl

theorem once_setProc {s : Sys} (h : Holders s) {x : Proc}
    (hx : x.held.Nodup ∧ ∀ b, x.pc = .returned b → b ∉ x.held) (q : Nat) :
    ((s.setProc p x).proc q).held.Nodup ∧
      ∀ b, ((s.setProc p x).proc q).pc = .returned b → b ∉ ((s.setProc p x).proc q).held := by
  by_cases hq : q = p
  · rw [hq, Sys.setProc_proc_self]
    exact hx
  · rw [Sys.setProc_proc_of_ne _ _ hq]
    exact h.once q

section

variable (h : Transparent s)

include h

/-- A step that changes one process only, which holds the buffers that it held. -/
theorem Transparent.setProc {x : Proc} {asked : Nat → Nat}
    (hheld : x.held = (s.sys.proc p).held)
    (hret : ∀ b, x.pc = .returned b → (s.sys.proc p).pc = .returned b ∧ asked p = s.asked p)
    (hloop : ∀ dev sector, x.pc = .loop dev sector → dev = ROOTDEV ∧ sector = asked p)
    (hother : ∀ q, q ≠ p → asked q = s.asked q) :
    Transparent { s with sys := s.sys.setProc p x, asked := asked } := by
  have hsub : ∀ q b, Holds (s.sys.setProc p x) q b → Holds s.sys q b := by
    intro q b hq
    rw [holds_setProc] at hq
    split at hq
    · rename_i heq
      subst heq
      rcases hq with hmem | hpc
      · exact .inl (hheld ▸ hmem)
      · exact .inr (hret b hpc).1
    · exact hq
  refine ⟨h.threaded, h.held.mono hsub (fun _ _ _ hb => hb) (once_setProc h.held ⟨?_, ?_⟩), h.dev,
    h.uniq, h.clean, h.data, fun b hb => ?_, h.flat, fun q dev sector hq => ?_, fun q b hq => ?_,
    h.panicked⟩
  · rw [hheld]
    exact (h.held.once p).1
  · intro b hpc
    rw [hheld]
    exact (h.held.once p).2 b (hret b hpc).1
  · obtain ⟨q, hq⟩ := h.touched b hb
    refine ⟨q, ?_⟩
    by_cases hqp : q = p
    · subst hqp
      show b ∈ ((s.sys.setProc q x).proc q).held
      rwa [Sys.setProc_proc_self, hheld]
    · show b ∈ ((s.sys.setProc p x).proc q).held
      rwa [Sys.setProc_proc_of_ne _ _ hqp]
  · have hq' : ((s.sys.setProc p x).proc q).pc = .loop dev sector := hq
    by_cases hqp : q = p
    · subst hqp
      rw [Sys.setProc_proc_self] at hq'
      exact hloop dev sector hq'
    · rw [Sys.setProc_proc_of_ne _ _ hqp] at hq'
      show dev = ROOTDEV ∧ sector = asked q
      rw [hother q hqp]
      exact h.loop q dev sector hq'
  · have hq' : ((s.sys.setProc p x).proc q).pc = .returned b := hq
    by_cases hqp : q = p
    · subst hqp
      rw [Sys.setProc_proc_self] at hq'
      obtain ⟨hpc, hasked⟩ := hret b hq'
      show _ ∧ _ = asked q
      rw [hasked]
      exact h.returned q b hpc
    · rw [Sys.setProc_proc_of_ne _ _ hqp] at hq'
      show _ ∧ _ = asked q
      rw [hother q hqp]
      exact h.returned q b hq'

/-- A buffer that is held is one of the root device. -/
theorem Transparent.dev_of_holds (hb : Holds s.sys p b) : (s.sys.cache.buf b).dev = ROOTDEV := by
  rcases h.dev b with hroot | ⟨-, -, hfree⟩
  · exact hroot
  · rw [h.held.busy p b hb] at hfree
    cases hfree

/-- A buffer that `bread` is about to return has not been changed. -/
theorem Transparent.untouched_of_returned
    (hb : (s.sys.proc p).pc = .returned b) : s.touched b = false := by
  by_contra ht
  rw [Bool.not_eq_false] at ht
  obtain ⟨q, hq⟩ := h.touched b ht
  obtain rfl := h.held.excl p q b (.inr hb) (.inl hq)
  exact (h.held.once p).2 b hb hq

/-- The data of one buffer that is held changes: with the disk, or by the holder. -/
theorem Transparent.setBuf {x : Buf} {touched : BufId → Bool}
    {disk flat : Nat → Block} (hb : Holds s.sys p b)
    (hx : x.busy = true ∧ x.dirty = false ∧ x.dev = (s.sys.cache.buf b).dev ∧
      x.sector = (s.sys.cache.buf b).sector)
    (hdata : x.valid = true → touched b = false → x.data = disk x.sector)
    (htouched : touched b = true → b ∈ (s.sys.proc p).held)
    (hother : ∀ b', b' ≠ b → touched b' = s.touched b')
    (hdisk : ∀ n, n ≠ (s.sys.cache.buf b).sector → disk n = s.sys.disk n) (hflat : flat = disk) :
    Transparent { s with
      sys := { s.sys with cache := s.sys.cache.setBuf b x, disk := disk }
      touched := touched, flat := flat } := by
  have hroot := h.dev_of_holds hb
  have hbuf := s.sys.cache.buf_setBuf b x
  -- device and sector of every buffer are as before
  have hkeep : ∀ b', ((s.sys.cache.setBuf b x).buf b').dev = (s.sys.cache.buf b').dev ∧
      ((s.sys.cache.setBuf b x).buf b').sector = (s.sys.cache.buf b').sector := by
    intro b'
    rw [hbuf]
    split
    · rename_i hbb
      rw [hbb]
      exact hx.2.2
    · exact ⟨rfl, rfl⟩
  refine ⟨h.threaded, h.held.mono (fun _ _ hq => hq) (fun q b' _ hbusy => ?_) h.held.once,
    fun b' => ?_, fun b₁ b₂ => ?_, fun b' => ?_, fun b' hvalid ht => ?_, fun b' ht => ?_, hflat,
    h.loop, fun q b' hq => ?_, h.panicked⟩
  · show ((s.sys.cache.setBuf b x).buf b').busy = true
    rw [hbuf]
    split
    · exact hx.1
    · exact hbusy
  · show ((s.sys.cache.setBuf b x).buf b').dev = _ ∨ _
    rw [(hkeep b').1]
    rcases h.dev b' with hdev | ⟨hdev, hval, hbusy⟩
    · exact .inl hdev
    · refine .inr ⟨hdev, ?_⟩
      have hbb : b' ≠ b := by
        rintro rfl
        rw [h.held.busy p b' hb] at hbusy
        cases hbusy
      show ((s.sys.cache.setBuf b x).buf b').valid = _ ∧ ((s.sys.cache.setBuf b x).buf b').busy = _
      rw [hbuf, if_neg hbb]
      exact ⟨hval, hbusy⟩
  · show ((s.sys.cache.setBuf b x).buf b₁).dev = _ → ((s.sys.cache.setBuf b x).buf b₂).dev = _ →
      ((s.sys.cache.setBuf b x).buf b₁).sector = ((s.sys.cache.setBuf b x).buf b₂).sector → _
    rw [(hkeep b₁).1, (hkeep b₁).2, (hkeep b₂).1, (hkeep b₂).2]
    exact h.uniq b₁ b₂
  · show ((s.sys.cache.setBuf b x).buf b').dirty = false
    rw [hbuf]
    split
    · exact hx.2.1
    · exact h.clean b'
  · have hvalid' : ((s.sys.cache.setBuf b x).buf b').valid = true := hvalid
    have ht' : touched b' = false := ht
    show ((s.sys.cache.setBuf b x).buf b').data = disk ((s.sys.cache.setBuf b x).buf b').sector
    rw [hbuf] at hvalid' ⊢
    by_cases hbb : b' = b
    · rw [if_pos hbb] at hvalid' ⊢
      rw [hbb] at ht'
      exact hdata hvalid' ht'
    · rw [if_neg hbb] at hvalid' ⊢
      rw [hother b' hbb] at ht'
      have hroot' : (s.sys.cache.buf b').dev = ROOTDEV := by
        rcases h.dev b' with hdev | ⟨-, hinv, -⟩
        · exact hdev
        · rw [hvalid'] at hinv
          cases hinv
      rw [hdisk _ fun heq => hbb (h.uniq b' b hroot' hroot heq)]
      exact h.data b' hvalid' ht'
  · have ht' : touched b' = true := ht
    by_cases hbb : b' = b
    · rw [hbb] at ht' ⊢
      exact ⟨p, htouched ht'⟩
    · rw [hother b' hbb] at ht'
      exact h.touched b' ht'
  · show ((s.sys.cache.setBuf b x).buf b').dev = _ ∧ ((s.sys.cache.setBuf b x).buf b').sector = _
    rw [(hkeep b').1, (hkeep b').2]
    exact h.returned q b' hq

/-- A process that was about to get a buffer from `bread` gets it. -/
theorem Transparent.take (hpc : (s.sys.proc p).pc = .returned b) :
    Transparent { s with sys := s.sys.setProc p ((s.sys.proc p).gets b) } := by
  refine ⟨h.threaded, h.held.mono (fun q b' hq => ?_) (fun _ _ _ hb => hb)
    (once_setProc h.held ⟨?_, fun b' hb' => (nomatch hb')⟩), h.dev, h.uniq, h.clean, h.data,
    fun b' ht => ?_, h.flat, fun q dev sector hq => ?_, fun q b' hq => ?_, h.panicked⟩
  · rw [holds_setProc] at hq
    split at hq
    · rename_i heq
      subst heq
      rcases hq with hmem | hret
      · rcases List.mem_cons.mp hmem with rfl | hmem
        · exact .inr hpc
        · exact .inl hmem
      · cases hret
    · exact hq
  · exact List.nodup_cons.mpr ⟨(h.held.once p).2 b hpc, (h.held.once p).1⟩
  · obtain ⟨q, hq⟩ := h.touched b' ht
    refine ⟨q, ?_⟩
    rw [Sys.proc_setProc]
    split
    · rename_i heq
      subst heq
      exact .tail _ hq
    · exact hq
  · rw [Sys.proc_setProc] at hq
    split at hq
    · cases hq
    · exact h.loop q dev sector hq
  · rw [Sys.proc_setProc] at hq
    split at hq
    · cases hq
    · exact h.returned q b' hq

/-- **`bget` gets a buffer**: the cached one, or a recycled one when the sector is not cached. -/
theorem Transparent.got {p dev sector : Nat}
    (hpc : (s.sys.proc p).pc = .loop dev sector) (hgot : Bio.bget s.sys.cache dev sector = .got b c)
    :
    Transparent { s with sys := { s.sys with cache := c }.setProc p ((s.sys.proc p).found b) } := by
  obtain ⟨rfl, rfl⟩ := h.loop p dev sector hpc
  obtain ⟨hfree, hcases⟩ := bget_got_cases h.threaded hgot
  -- nobody held the buffer
  have hnone : ∀ q, ¬ Holds s.sys q b := fun q hq => by
    rw [h.held.busy q b hq] at hfree
    cases hfree
  -- the buffer is now the one of the sector, and if it is valid it was that before
  obtain ⟨x, rfl, hbusy, hdirty, hdev, hsector, hvalid, huniq⟩ : ∃ x, c = s.sys.cache.setBuf b x ∧
      x.busy = true ∧ x.dirty = false ∧ x.dev = ROOTDEV ∧ x.sector = s.asked p ∧
      (x.valid = true → (s.sys.cache.buf b).valid = true ∧ x.data = (s.sys.cache.buf b).data ∧
        x.sector = (s.sys.cache.buf b).sector) ∧
      ∀ b', (s.sys.cache.buf b').dev = ROOTDEV → (s.sys.cache.buf b').sector = s.asked p →
        b' = b := by
    rcases hcases with ⟨hd, hs, rfl⟩ | ⟨hno, rfl⟩
    · exact ⟨_, rfl, rfl, h.clean b, hd, hs, fun hv => ⟨hv, rfl, rfl⟩,
        fun b' hd' hs' => h.uniq b' b hd' hd (hs'.trans hs.symm)⟩
    · exact ⟨_, rfl, rfl, rfl, rfl, rfl, fun hv => (nomatch hv), fun b' hd' hs' =>
        absurd ⟨hd', hs'⟩ (hno b')⟩
  have hbuf := s.sys.cache.buf_setBuf b x
  have hholds : ∀ q b', Holds (({ s.sys with cache := s.sys.cache.setBuf b x } : Sys).setProc p
      ((s.sys.proc p).found b)) q b' →
        Holds s.sys q b' ∨ q = p ∧ b' = b := by
    intro q b' hq
    rw [Holds, Sys.proc_setProc] at hq
    split at hq
    · rename_i heq
      rcases hq with hmem | hret
      · rw [heq]
        exact .inl (.inl hmem)
      · exact .inr ⟨heq, (Pc.returned.inj hret).symm⟩
    · exact .inl hq
  refine ⟨h.threaded, ⟨fun q b' hq => ?_, fun q r b' hq hr => ?_, fun q => ?_⟩, fun b' => ?_,
    fun b₁ b₂ => ?_, fun b' => ?_, fun b' => ?_, fun b' ht => ?_, h.flat,
    fun q d n hq => ?_, fun q b' hq => ?_, h.panicked⟩
  · show ((s.sys.cache.setBuf b x).buf b').busy = true
    rw [hbuf]
    split
    · exact hbusy
    · rename_i hbb
      rcases hholds q b' hq with hold | ⟨-, heq⟩
      · exact h.held.busy q b' hold
      · exact absurd heq hbb
  · rcases hholds q b' hq with hq' | ⟨hqp, hqb⟩
    · rcases hholds r b' hr with hr' | ⟨-, hrb⟩
      · exact h.held.excl q r b' hq' hr'
      · rw [hrb] at hq'
        exact absurd hq' (hnone q)
    · rcases hholds r b' hr with hr' | ⟨hrp, -⟩
      · rw [hqb] at hr'
        exact absurd hr' (hnone r)
      · rw [hqp, hrp]
  · rw [Sys.proc_setProc]
    split
    · refine ⟨(h.held.once p).1, fun b' hb' hmem => ?_⟩
      rw [← Pc.returned.inj hb'] at hmem
      exact hnone p (.inl hmem)
    · exact h.held.once q
  · show ((s.sys.cache.setBuf b x).buf b').dev = _ ∨ ((s.sys.cache.setBuf b x).buf b').dev = _ ∧
      ((s.sys.cache.setBuf b x).buf b').valid = _ ∧ ((s.sys.cache.setBuf b x).buf b').busy = _
    rw [hbuf]
    split
    · exact .inl hdev
    · exact h.dev b'
  · show ((s.sys.cache.setBuf b x).buf b₁).dev = _ → ((s.sys.cache.setBuf b x).buf b₂).dev = _ →
      ((s.sys.cache.setBuf b x).buf b₁).sector = ((s.sys.cache.setBuf b x).buf b₂).sector → _
    rw [hbuf, hbuf]
    split <;> rename_i h₁
    · split <;> rename_i h₂
      · exact fun _ _ _ => h₁.trans h₂.symm
      · exact fun _ hd heq => absurd (huniq b₂ hd (heq.symm.trans hsector)) h₂
    · split <;> rename_i h₂
      · exact fun hd _ heq => absurd (huniq b₁ hd (heq.trans hsector)) h₁
      · exact h.uniq b₁ b₂
  · show ((s.sys.cache.setBuf b x).buf b').dirty = false
    rw [hbuf]
    split
    · exact hdirty
    · exact h.clean b'
  · show ((s.sys.cache.setBuf b x).buf b').valid = true → s.touched b' = false →
      ((s.sys.cache.setBuf b x).buf b').data = s.sys.disk ((s.sys.cache.setBuf b x).buf b').sector
    rw [hbuf]
    split
    · rename_i hbb
      intro hv ht
      obtain ⟨hv', hd', hs'⟩ := hvalid hv
      rw [hbb] at ht
      rw [hd', hs']
      exact h.data b hv' ht
    · exact h.data b'
  · obtain ⟨q, hq⟩ := h.touched b' ht
    refine ⟨q, ?_⟩
    rw [Sys.proc_setProc]
    split
    · rename_i heq
      rw [heq] at hq
      exact hq
    · exact hq
  · rw [Sys.proc_setProc] at hq
    split at hq
    · cases hq
    · exact h.loop q d n hq
  · show ((s.sys.cache.setBuf b x).buf b').dev = _ ∧ ((s.sys.cache.setBuf b x).buf b').sector = _
    rw [Sys.proc_setProc] at hq
    rw [hbuf]
    split at hq
    · rename_i heq
      rw [if_pos (Pc.returned.inj hq).symm, heq]
      exact ⟨hdev, hsector⟩
    · have hbb : b' ≠ b := by
        rintro rfl
        exact hnone q (.inr hq)
      rw [if_neg hbb]
      exact h.returned q b' hq

/-- **`brelse`** of a buffer that has not been changed since it was read or written. -/
theorem Transparent.release (hb : b ∈ (s.sys.proc p).held)
    (hpc : (s.sys.proc p).pc = .outside) (ht : s.touched b = false)
    (hc : Bio.brelse s.sys.cache b = some c) :
    Transparent { s with sys := { s.sys with cache := c }.setProc p ((s.sys.proc p).drops b) } := by
  have hthreaded := h.threaded.brelse hc
  have hnodup := (h.held.once p).1
  have hbuf : ∀ b', c.buf b' =
      if b' = b then { s.sys.cache.buf b with busy := false } else s.sys.cache.buf b' := by
    intro b'
    rw [Bio.brelse] at hc
    split at hc
    · cases hc
    · obtain rfl := Option.some.inj hc
      by_cases hbb : b' = b
      · rw [if_pos hbb, hbb, Bcache.setBuf_buf_self]
      · rw [if_neg hbb, Bcache.setBuf_buf_of_ne _ _ hbb, Bcache.linkFirst_buf, Bcache.unlinkBuf_buf]
  -- nobody holds the buffer any more
  have hholds : ∀ q b', Holds (({ s.sys with cache := c } : Sys).setProc p
      ((s.sys.proc p).drops b)) q b' →
        Holds s.sys q b' ∧ b' ≠ b := by
    intro q b' hq
    rw [Holds, Sys.proc_setProc] at hq
    split at hq
    · rename_i heq
      rw [heq]
      rcases hq with hmem | hret
      · obtain ⟨hne, hmem⟩ := hnodup.mem_erase_iff.mp hmem
        exact ⟨.inl hmem, hne⟩
      · rw [show (s.sys.proc p).pc = .returned b' from hret] at hpc
        cases hpc
    · rename_i hne
      refine ⟨hq, ?_⟩
      rintro rfl
      exact hne (h.held.excl q p b' hq (.inl hb))
  have hsame : ∀ b', (c.buf b').dev = (s.sys.cache.buf b').dev ∧
      (c.buf b').sector = (s.sys.cache.buf b').sector ∧
      (c.buf b').valid = (s.sys.cache.buf b').valid ∧
      (c.buf b').data = (s.sys.cache.buf b').data ∧
      (c.buf b').dirty = (s.sys.cache.buf b').dirty := by
    intro b'
    rw [hbuf]
    split
    · rename_i hbb
      rw [hbb]
      exact ⟨rfl, rfl, rfl, rfl, rfl⟩
    · exact ⟨rfl, rfl, rfl, rfl, rfl⟩
  refine ⟨hthreaded, h.held.mono (fun q b' hq => (hholds q b' hq).1) (fun q b' hq hbusy => ?_)
    (fun q => ?_), fun b' => ?_, fun b₁ b₂ => ?_, fun b' => ?_, fun b' => ?_, fun b' htb => ?_,
    h.flat, fun q d n hq => ?_, fun q b' hq => ?_, h.panicked⟩
  · show (c.buf b').busy = true
    rw [hbuf, if_neg (hholds q b' hq).2]
    exact hbusy
  · rw [Sys.proc_setProc]
    split
    · refine ⟨hnodup.erase b, fun b' hb' => ?_⟩
      rw [show (s.sys.proc p).pc = .returned b' from hb'] at hpc
      cases hpc
    · exact h.held.once q
  · show (c.buf b').dev = _ ∨ (c.buf b').dev = _ ∧ (c.buf b').valid = _ ∧ (c.buf b').busy = _
    rw [(hsame b').1, (hsame b').2.2.1]
    refine (h.dev b').imp_right fun hdev => ⟨hdev.1, hdev.2.1, ?_⟩
    rw [hbuf]
    split
    · rfl
    · exact hdev.2.2
  · show (c.buf b₁).dev = _ → (c.buf b₂).dev = _ → (c.buf b₁).sector = (c.buf b₂).sector → _
    rw [(hsame b₁).1, (hsame b₂).1, (hsame b₁).2.1, (hsame b₂).2.1]
    exact h.uniq b₁ b₂
  · exact (hsame b').2.2.2.2.trans (h.clean b')
  · show (c.buf b').valid = true → _ → (c.buf b').data = s.sys.disk (c.buf b').sector
    rw [(hsame b').2.2.1, (hsame b').2.2.2.1, (hsame b').2.1]
    exact h.data b'
  · obtain ⟨q, hq⟩ := h.touched b' htb
    refine ⟨q, ?_⟩
    rw [Sys.proc_setProc]
    split
    · rename_i heq
      rw [heq] at hq
      have hbb : b' ≠ b := by
        rintro rfl
        rw [show s.touched b' = true from htb] at ht
        cases ht
      exact hnodup.mem_erase_iff.mpr ⟨hbb, hq⟩
    · exact hq
  · rw [Sys.proc_setProc] at hq
    split at hq
    · rename_i heq
      rw [show (s.sys.proc p).pc = .loop d n from hq] at hpc
      cases hpc
    · exact h.loop q d n hq
  · show (c.buf b').dev = _ ∧ (c.buf b').sector = _
    rw [(hsame b').1, (hsame b').2.1]
    rw [Sys.proc_setProc] at hq
    split at hq
    · rename_i heq
      rw [show (s.sys.proc p).pc = .returned b' from hq] at hpc
      cases hpc
    · exact h.returned q b' hq

end

/-- **Every step keeps the invariant.** -/
theorem Transparent.step {s t : FlatSys} {e : BlockEvent} (h : Transparent s)
    (hs : s.step e = some t) : Transparent t := by
  cases e with
  | bread p sector =>
      obtain ⟨u, hu, rfl⟩ := Option.map_eq_some_iff.mp hs
      obtain ⟨-, rfl⟩ := step_bread hu
      refine h.setProc rfl (fun b hb => nomatch hb) (fun dev n hpc => ?_) fun q hq =>
        update_of_ne hq ..
      obtain ⟨rfl, rfl⟩ := Pc.loop.inj hpc
      exact ⟨rfl, by rw [update_self]⟩
  | kill p =>
      obtain ⟨u, hu, rfl⟩ := Option.map_eq_some_iff.mp hs
      obtain rfl := step_kill hu
      exact h.setProc rfl (fun b hb => ⟨hb, rfl⟩) (h.loop p) fun _ _ => rfl
  | bget p =>
      obtain ⟨u, hu, rfl⟩ := Option.map_eq_some_iff.mp hs
      obtain ⟨dev, sector, hpc, ⟨b, c, hgot, rfl⟩ | ⟨b, rfl⟩ | rfl⟩ := step_bget hu
      · exact h.got hpc hgot
      · exact h.setProc rfl (fun b' hb' => ⟨hb', rfl⟩) (h.loop p) fun _ _ => rfl
      · exact ⟨h.threaded, ⟨h.held.busy, h.held.excl, h.held.once⟩, h.dev, h.uniq, h.clean, h.data,
          h.touched, h.flat, h.loop, h.returned, .inr rfl⟩
  | fill p =>
      obtain ⟨u, hu, rfl⟩ := Option.map_eq_some_iff.mp hs
      obtain ⟨b, hpc, ⟨-, rfl⟩ | ⟨-, rfl⟩⟩ := step_fill hu fun b hb =>
        ⟨h.held.busy p b (.inr hb), h.clean b⟩
      · exact h.take hpc
      · have hread : Transparent
            { s with sys := { s.sys with cache := s.sys.cache.read s.sys.disk b } } :=
          h.setBuf (.inr hpc) ⟨h.held.busy p b (.inr hpc), rfl, rfl, rfl⟩ (fun _ _ => rfl)
            (fun ht => by rw [h.untouched_of_returned hpc] at ht; cases ht) (fun _ _ => rfl)
            (fun _ _ => rfl) h.flat
        exact hread.take hpc
  | modify p b data =>
      rw [FlatSys.step] at hs
      split at hs
      · rename_i hp
        obtain rfl := Option.some.inj hs
        have hheld := hp.2.2.2
        exact h.setBuf (.inl hheld) ⟨h.held.busy p b (.inl hheld), h.clean b, rfl, rfl⟩
          (fun _ ht => by rw [update_self] at ht; cases ht) (fun _ => hheld)
          (fun b' hb' => update_of_ne hb' ..) (fun _ _ => rfl) h.flat
      · cases hs
  | bwrite p b =>
      obtain ⟨u, hu, rfl⟩ := Option.map_eq_some_iff.mp hs
      obtain ⟨hheld, rfl⟩ := step_bwrite hu fun hmem => h.held.busy p b (.inl hmem)
      refine h.setBuf (.inl hheld) ⟨h.held.busy p b (.inl hheld), rfl, rfl, rfl⟩
        (fun _ _ => ?_) (fun ht => ?_) (fun b' hb' => update_of_ne hb' ..)
        (fun n hn => update_of_ne hn ..) ?_
      · rw [update_self]
      · rw [update_self] at ht
        cases ht
      · rw [h.flat]
  | brelse p b =>
      rw [FlatSys.step] at hs
      split at hs
      · cases hs
      · rename_i ht
        rw [Bool.not_eq_true] at ht
        obtain ⟨u, hu, rfl⟩ := Option.map_eq_some_iff.mp hs
        obtain ⟨hheld, hpc, c, hc, rfl⟩ := step_brelse_held hu fun hmem =>
          h.held.busy p b (.inl hmem)
        exact h.release hheld hpc ht hc

/-- A run of the block operations from boot. -/
abbrev BlockRun (disk : Nat → Block) (tr : List (FlatSys × BlockEvent)) (s : FlatSys) : Prop :=
  Exec (StepOf FlatSys.step) (FlatSys.boot disk) tr s

theorem Transparent.of_run {tr : List (FlatSys × BlockEvent)} (hrun : BlockRun disk tr s) :
    Transparent s :=
  Exec.invariant (fun _ _ _ h hstep => h.step hstep) hrun (transparent_boot disk)

/-- What `bread` returns: the buffer of the sector asked for, with the contents of the flat disk. -/
theorem Transparent.fill {s t : FlatSys} (h : Transparent s) (hs : s.step (.fill p) = some t) :
    ∃ b ∈ (t.sys.proc p).held, (t.sys.cache.buf b).dev = ROOTDEV ∧
      (t.sys.cache.buf b).sector = s.asked p ∧ (t.sys.cache.buf b).data = s.flat (s.asked p) := by
  obtain ⟨u, hu, rfl⟩ := Option.map_eq_some_iff.mp hs
  obtain ⟨b, hpc, hcases⟩ := step_fill hu fun b hb =>
    ⟨h.held.busy p b (.inr hb), h.clean b⟩
  obtain ⟨hdev, hsector⟩ := h.returned p b hpc
  have hmem : b ∈ ((s.sys.proc p).gets b).held := .head _
  rw [h.flat, ← hsector]
  rcases hcases with ⟨hvalid, rfl⟩ | ⟨-, rfl⟩
  · refine ⟨b, ?_, hdev, rfl, h.data b hvalid (h.untouched_of_returned hpc)⟩
    rw [Sys.setProc_proc_self]
    exact hmem
  · refine ⟨b, ?_, ?_⟩
    · rw [Sys.setProc_proc_self]
      exact hmem
    · rw [Sys.setProc_cache, Bcache.read, Bcache.setBuf_buf_self]
      exact ⟨hdev, rfl, rfl⟩

/-- **The buffer cache is transparent.** In every run at most one buffer is used for a sector, a
valid buffer that is not busy has the contents of its sector and is clean, every `bread` returns
the bytes last written to its sector, and `iderw` does not panic. -/
theorem cache_transparent {disk : Nat → Block} {tr : List (FlatSys × BlockEvent)} {s : FlatSys}
    (hrun : BlockRun disk tr s) :
    (∀ b b', (s.sys.cache.buf b).dev ≠ 4294967295 →
        (s.sys.cache.buf b).dev = (s.sys.cache.buf b').dev →
        (s.sys.cache.buf b).sector = (s.sys.cache.buf b').sector → b = b') ∧
      (∀ b, (s.sys.cache.buf b).valid = true → (s.sys.cache.buf b).busy = false →
        (s.sys.cache.buf b).data = s.sys.disk (s.sys.cache.buf b).sector ∧
          (s.sys.cache.buf b).dirty = false) ∧
      (∀ t p, (t, .fill p) ∈ tr → ∃ u, t.step (.fill p) = some u ∧ ∃ b ∈ (u.sys.proc p).held,
        (u.sys.cache.buf b).dev = ROOTDEV ∧ (u.sys.cache.buf b).sector = t.asked p ∧
          (u.sys.cache.buf b).data = t.flat (t.asked p)) ∧
      s.sys.panicked ≠ some "iderw" := by
  have h := Transparent.of_run hrun
  refine ⟨fun b b' hdev heq hsector => ?_, fun b hvalid hfree => ⟨h.data b hvalid ?_, h.clean b⟩,
    fun t p hmem => ?_, ?_⟩
  · have hroot : (s.sys.cache.buf b).dev = ROOTDEV :=
      (h.dev b).resolve_right fun hunused => hdev hunused.1
    exact h.uniq b b' hroot (heq ▸ hroot) hsector
  · by_contra ht
    rw [Bool.not_eq_false] at ht
    obtain ⟨p, hp⟩ := h.touched b ht
    rw [h.held.busy p b (Or.inl hp)] at hfree
    cases hfree
  · obtain ⟨pre, hpre, -, u, hu, -⟩ := Exec.exists_upto hrun hmem
    exact ⟨u, hu, (Transparent.of_run hpre).fill hu⟩
  · rcases h.panicked with hnone | hsome
    · rw [hnone]
      exact nofun
    · rw [hsome]
      decide

/-- A process writes a sector, and another one reads it from the cache. -/
def writeRead : List BlockEvent :=
  [.bread 0 7, .bget 0, .fill 0, .modify 0 oldest (fun _ => 1), .bwrite 0 oldest, .brelse 0 oldest,
    .bread 1 7, .bget 1, .fill 1]

/-- A run in which a process reads what another one has written. -/
theorem cache_transparent_writeRead :
    ∃ tr s, BlockRun zeroDisk tr s ∧ (s.sys.proc 1).held = [oldest] ∧
      s.sys.panicked ≠ some "iderw" := by
  obtain ⟨s, hs, hheld⟩ : ∃ s, runAll FlatSys.step (FlatSys.boot zeroDisk) writeRead = some s ∧
      (s.sys.proc 1).held = [oldest] := by
    have hend : (runAll FlatSys.step (FlatSys.boot zeroDisk) writeRead).any
        (fun s => (s.sys.proc 1).held = [oldest]) = true := by decide +kernel
    obtain ⟨s, hs, hheld⟩ := (Option.any_eq_true _ _).mp hend
    exact ⟨s, hs, of_decide_eq_true hheld⟩
  have hrun := exec_of_runAll FlatSys.step hs
  exact ⟨_, s, hrun, hheld, (cache_transparent hrun).2.2.2⟩

end Xv6.Bio

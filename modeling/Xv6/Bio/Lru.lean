import Xv6.Bio.Transparent

/-! # The buffers in the order of their use

`bio.c` keeps the buffers on a list, "head.next is most recently used": `brelse` puts its buffer
first, and `bget` recycles from the other end. Any processes run `bget` and `brelse` in any order,
with disk requests and changes of the data in between; a clock ticks at every step, and beside the
cache it is recorded when each buffer was last released. -/

namespace Xv6.Bio

open Lib

/-! ## The cache and the time of the releases -/

/-- **The cache**, the time, and the time of the last `brelse` of each buffer. -/
structure Timed where
  cache : Bcache
  clock : Nat
  last : BufId → Option Nat

/-- The steps of the processes, whoever takes them. -/
inductive CacheOp
  /-- A pass of `bget` from its label `loop`. -/
  | bget (dev sector : Nat)
  | brelse (b : BufId)
  | iderw (b : BufId) (disk : Nat → Block)
  /-- The data of a buffer is changed, and `bwrite` marks it. -/
  | modify (b : BufId) (data : Block) (dirty : Bool)

namespace Timed

/-- The time passes, with the cache as a step leaves it. -/
def tick (s : Timed) (c : Bcache) : Timed := { s with cache := c, clock := s.clock + 1 }

/-- The step of a process; there is none after a panic. -/
def step (s : Timed) : CacheOp → Option Timed
  | .bget dev sector =>
      match Bio.bget s.cache dev sector with
      | .got _ c => some (s.tick c)
      | .sleep _ => some (s.tick s.cache)
      | .noBuffers => none
  | .brelse b =>
      (Bio.brelse s.cache b).map fun c =>
        { s.tick c with last := Function.update s.last b (some s.clock) }
  | .iderw b disk => (Bio.iderw s.cache disk b).map fun r => s.tick r.1
  | .modify b data dirty =>
      some (s.tick (s.cache.setBuf b { s.cache.buf b with data := data, dirty := dirty }))

/-- The cache after `binit`: nothing has been released yet. -/
def boot : Timed := ⟨binit, 0, fun _ => none⟩

end Timed

/-- **The order of use**: `a` was released after `b` was; a buffer that was never released comes
after those that were, and among these the one that `binit` put on the list later comes first. -/
def Before (last : BufId → Option Nat) (a b : BufId) : Prop :=
  match last a, last b with
  | some i, some j => j < i
  | some _, none => True
  | none, some _ => False
  | none, none => b < a

/-- **The list of the buffers is in the order of their use**: through `next` it goes from the head
through `l` and back, `prev` undoes `next` and `next` undoes `prev`, and `l` holds every buffer
once, in the order of use. -/
structure Lru (s : Timed) (l : List BufId) : Prop where
  linked : Linked s.cache.next s.cache.prev l
  inverse : ∀ x, s.cache.prev (s.cache.next x) = x ∧ s.cache.next (s.cache.prev x) = x
  all : ∀ b, b ∈ l
  ordered : l.Pairwise (Before s.last)

/-- **`bget` recycles the least recently used buffer**: where no buffer holds the sector, it takes
the one, among those that are not busy, whose last release is the oldest, and there is one to take
unless all are busy. -/
structure Recycles (s : Timed) : Prop where
  oldest : ∀ dev sector b c,
    (∀ b', ¬ ((s.cache.buf b').dev = dev ∧ (s.cache.buf b').sector = sector)) →
    bget s.cache dev sector = .got b c →
    (s.cache.buf b).busy = false ∧
      ∀ b', (s.cache.buf b').busy = false → b' ≠ b → Before s.last b' b
  found : ∀ dev sector b',
    (∀ b', ¬ ((s.cache.buf b').dev = dev ∧ (s.cache.buf b').sector = sector)) →
    (s.cache.buf b').busy = false → ∃ b c, bget s.cache dev sector = .got b c

/-! ## The search for a buffer that is not busy -/

variable {c : Bcache} {l : List BufId} {b : BufId} {dev sector : Nat}

/-- The buffer found is the first one on the way that is not busy. -/
theorem findFree_first {n : Nat} {a : Link} (hl : Leads c.prev a l none) (hn : l.length < n)
    (h : findFree c n (c.prev a) = some b) :
    ∃ l₁ l₂, l = l₁ ++ b :: l₂ ∧ ∀ b' ∈ l₁, (c.buf b').busy = true := by
  induction l generalizing a n with
  | nil =>
      obtain ⟨n, rfl⟩ : ∃ m, n = m + 1 := ⟨n - 1, by omega⟩
      rw [show c.prev a = none from hl, findFree] at h
      cases h
  | cons d l ih =>
      obtain ⟨n, rfl⟩ : ∃ m, n = m + 1 := ⟨n - 1, by omega⟩
      rw [hl.1, findFree] at h
      split at h
      · next hbusy =>
        obtain ⟨l₁, l₂, rfl, hl₁⟩ := ih hl.2 (by simpa using hn) h
        exact ⟨d :: l₁, l₂, rfl, List.forall_mem_cons.mpr ⟨hbusy, hl₁⟩⟩
      · obtain rfl : d = b := Option.some.inj h
        exact ⟨[], l, rfl, fun _ hb => absurd hb List.not_mem_nil⟩

/-- A search that finds nothing has met busy buffers only. -/
theorem findFree_none {n : Nat} {a : Link} (hl : Leads c.prev a l none) (hn : l.length < n)
    (h : findFree c n (c.prev a) = none) :
    ∀ b ∈ l, (c.buf b).busy = true := by
  induction l generalizing a n with
  | nil => exact fun _ hb => absurd hb List.not_mem_nil
  | cons d l ih =>
      obtain ⟨n, rfl⟩ : ∃ m, n = m + 1 := ⟨n - 1, by omega⟩
      rw [hl.1, findFree] at h
      split at h
      · next hbusy =>
        exact List.forall_mem_cons.mpr ⟨hbusy, ih hl.2 (by simpa using hn) h⟩
      · cases h

/-- The panic of `bget`: all buffers are busy. -/
theorem busy_of_noBuffers (hc : Threaded c) (h : bget c dev sector = .noBuffers) (b : BufId) :
    (c.buf b).busy = true := by
  obtain ⟨l, hl, hall⟩ := hc
  rw [bget] at h
  split at h
  · split at h
    · cases h
    · cases h
  · split at h
    · cases h
    · next hfree =>
      exact findFree_none hl.prev (length_lt_of_nodup (List.nodup_reverse.mpr hl.nodup)) hfree b
        (List.mem_reverse.mpr (hall b))

/-- What `bget` returns for the free buffer it has found, if any. -/
def recycled (c : Bcache) (dev sector : Nat) : Option BufId → BgetResult
  | some b => .got b (c.setBuf b ⟨true, false, false, dev, sector, (c.buf b).data⟩)
  | none => .noBuffers

/-- A pass of `bget` where no buffer holds the sector. -/
theorem bget_miss (h : ∀ b, ¬ ((c.buf b).dev = dev ∧ (c.buf b).sector = sector)) :
    bget c dev sector = recycled c dev sector (findFree c (NBUF + 1) (c.prev none)) := by
  have hnone : findCached c dev sector (NBUF + 1) (c.next none) = none := by
    by_contra hsome
    obtain ⟨b, hb⟩ := Option.ne_none_iff_exists'.mp hsome
    exact h b (findCached_spec hb)
  rw [bget, hnone]
  cases findFree c (NBUF + 1) (c.prev none) with
  | none => rfl
  | some b => rfl

/-- **The order of the list decides which buffer is recycled**. -/
theorem Lru.recycles {s : Timed} (h : Lru s l) : Recycles s := by
  have hlen := length_lt_of_nodup (List.nodup_reverse.mpr h.linked.nodup)
  constructor
  · intro dev sector b c hmiss hgot
    rw [bget_miss hmiss] at hgot
    cases hfree : findFree s.cache (NBUF + 1) (s.cache.prev none) with
    | none =>
        rw [hfree] at hgot
        cases hgot
    | some b₁ =>
        rw [hfree] at hgot
        obtain ⟨rfl, -⟩ := BgetResult.got.inj hgot
        refine ⟨findFree_spec hfree, fun b' hb' hne => ?_⟩
        obtain ⟨l₁, l₂, hl, hbusy⟩ := findFree_first h.linked.prev hlen hfree
        -- what is behind the buffer on the list is busy, so the other one is before it
        have hl' : l = l₂.reverse ++ b₁ :: l₁.reverse := by
          rw [← List.reverse_reverse l, hl, List.reverse_append, List.reverse_cons,
            List.append_assoc, List.singleton_append]
        have hmem := h.all b'
        have hord := h.ordered
        rw [hl'] at hmem hord
        rcases List.mem_append.mp hmem with hbefore | hafter
        · exact (List.pairwise_append.mp hord).2.2 b' hbefore b₁ List.mem_cons_self
        · rcases List.mem_cons.mp hafter with heq | hafter
          · exact absurd heq hne
          · rw [hbusy b' (List.mem_reverse.mp hafter)] at hb'
            cases hb'
  · intro dev sector b' hmiss hb'
    rw [bget_miss hmiss]
    cases hfree : findFree s.cache (NBUF + 1) (s.cache.prev none) with
    | some b => exact ⟨b, _, rfl⟩
    | none =>
        have hbusy := findFree_none h.linked.prev hlen hfree b' (List.mem_reverse.mpr (h.all b'))
        rw [hbusy] at hb'
        cases hb'

/-! ## The steps keep the order -/

/-- `bget` changes a buffer, and no link. -/
theorem bget_links {c c' : Bcache} (h : bget c dev sector = .got b c') :
    c'.next = c.next ∧ c'.prev = c.prev := by
  rw [bget] at h
  split at h
  · split at h
    · cases h
    · obtain ⟨-, rfl⟩ := BgetResult.got.inj h
      exact ⟨rfl, rfl⟩
  · split at h
    · obtain ⟨-, rfl⟩ := BgetResult.got.inj h
      exact ⟨rfl, rfl⟩
    · cases h

/-- A disk request changes a buffer, and no link. -/
theorem iderw_links {disk : Nat → Block} {r : Bcache × (Nat → Block)}
    (h : iderw c disk b = some r) : r.1.next = c.next ∧ r.1.prev = c.prev := by
  simp only [iderw] at h
  split at h
  · cases h
  · split at h
    · cases h
    · split at h
      · obtain rfl := Option.some.inj h
        exact ⟨rfl, rfl⟩
      · obtain rfl := Option.some.inj h
        exact ⟨rfl, rfl⟩

/-- The invariant of the runs: no release is in the future. -/
structure LruInv (s : Timed) : Prop where
  lru : ∃ l, Lru s l
  past : ∀ b i, s.last b = some i → i < s.clock

/-- A step that leaves the links alone. -/
theorem LruInv.tick {s : Timed} (h : LruInv s) (hnext : c.next = s.cache.next)
    (hprev : c.prev = s.cache.prev) : LruInv (s.tick c) := by
  obtain ⟨⟨l, hl⟩, hpast⟩ := h
  refine ⟨⟨l, ?_, ?_, hl.all, hl.ordered⟩, fun b i hi => Nat.lt_succ_of_lt (hpast b i hi)⟩
  · rw [Timed.tick, hnext, hprev]
    exact hl.linked
  · rw [Timed.tick, hnext, hprev]
    exact hl.inverse

/-- A list that goes through every buffer goes there and back. -/
theorem inverse_of_linked {next prev : Link → Link} (h : Linked next prev l) (hall : ∀ b, b ∈ l)
    (x : Link) : prev (next x) = x ∧ next (prev x) = x :=
  ⟨h.prev_next fun b _ => hall b, h.symm.prev_next fun b _ => List.mem_reverse.mpr (hall b)⟩

/-- A buffer released now comes before every other one. -/
theorem before_update_self {last : BufId → Option Nat} {b b' : BufId} {t : Nat}
    (hpast : ∀ b i, last b = some i → i < t) (hne : b' ≠ b) :
    Before (Function.update last b (some t)) b b' := by
  rw [Before, Function.update_self, Function.update_of_ne hne]
  cases hlast : last b' with
  | none => trivial
  | some i => exact hpast b' i hlast

/-- The release of a buffer leaves the order of the others. -/
theorem before_update_of_ne {last : BufId → Option Nat} {b a a' : BufId} {t : Option Nat}
    (ha : a ≠ b) (ha' : a' ≠ b) (h : Before last a a') :
    Before (Function.update last b t) a a' := by
  rw [Before, Function.update_of_ne ha, Function.update_of_ne ha']
  exact h

/-- **`brelse` keeps the order**: the buffer comes first. -/
theorem LruInv.release {s : Timed} (h : LruInv s) (hb : brelse s.cache b = some c) :
    LruInv { s.tick c with last := Function.update s.last b (some s.clock) } := by
  obtain ⟨⟨l, hl⟩, hpast⟩ := h
  rw [brelse] at hb
  split at hb
  · cases hb
  obtain rfl : _ = c := Option.some.inj hb
  obtain ⟨l₁, l₂, rfl⟩ := List.append_of_mem (hl.all b)
  have hnodup := List.nodup_cons.mp (List.nodup_middle.mp hl.linked.nodup)
  have hlinked := hl.linked.unlink.linkFirst hnodup.1
  have hall : ∀ b', b' ∈ b :: (l₁ ++ l₂) := fun b' =>
    (List.perm_middle.mem_iff).mp (hl.all b')
  have hsub : (l₁ ++ l₂).Sublist (l₁ ++ b :: l₂) :=
    List.Sublist.append_left (List.sublist_cons_self ..) l₁
  have hne : ∀ b' ∈ l₁ ++ l₂, b' ≠ b := fun b' hmem heq => hnodup.1 (heq ▸ hmem)
  refine ⟨⟨b :: (l₁ ++ l₂), hlinked, inverse_of_linked hlinked hall, hall, ?_⟩, ?_⟩
  · refine List.pairwise_cons.mpr ⟨fun b' hb' => before_update_self hpast (hne b' hb'), ?_⟩
    exact (hl.ordered.sublist hsub).imp_of_mem fun ha ha' h =>
      before_update_of_ne (hne _ ha) (hne _ ha') h
  · intro b' i hi
    have hi : Function.update s.last b (some s.clock) b' = some i := hi
    by_cases hb' : b' = b
    · rw [hb', Function.update_self] at hi
      obtain rfl := Option.some.inj hi
      exact Nat.lt_succ_self _
    · rw [Function.update_of_ne hb'] at hi
      exact Nat.lt_succ_of_lt (hpast b' i hi)

/-- The invariant holds after `binit`. -/
theorem lruInv_boot : LruInv Timed.boot := by
  have hord : (List.finRange NBUF).reverse.Pairwise (fun a b => b < a) := by decide
  exact ⟨⟨_, linked_binit, inverse_of_linked linked_binit mem_finRange_reverse,
    mem_finRange_reverse, hord⟩, fun b i hi => nomatch hi⟩

/-- **Every step keeps the order**. -/
theorem LruInv.step {s t : Timed} {e : CacheOp} (h : LruInv s) (hs : s.step e = some t) :
    LruInv t := by
  cases e with
  | bget dev sector =>
      rw [Timed.step] at hs
      split at hs
      · next b c hgot =>
        obtain rfl := Option.some.inj hs
        obtain ⟨hnext, hprev⟩ := bget_links hgot
        exact h.tick hnext hprev
      · obtain rfl := Option.some.inj hs
        exact h.tick rfl rfl
      · cases hs
  | brelse b =>
      obtain ⟨c, hc, rfl⟩ := Option.map_eq_some_iff.mp hs
      exact h.release hc
  | iderw b disk =>
      obtain ⟨r, hr, rfl⟩ := Option.map_eq_some_iff.mp hs
      obtain ⟨hnext, hprev⟩ := iderw_links hr
      exact h.tick hnext hprev
  | modify b data dirty =>
      obtain rfl := Option.some.inj hs
      exact h.tick rfl rfl

/-- **The list of the buffers is an exact LRU**: after any steps of any processes since `binit`
the list holds every buffer once, in the order of the last releases, and `bget` recycles the buffer
whose last release is the oldest among those that are not busy. -/
theorem bufferList_exactLru {tr : List (Timed × CacheOp)} {s : Timed}
    (hrun : Exec (StepOf Timed.step) Timed.boot tr s) : (∃ l, Lru s l) ∧ Recycles s := by
  have h : LruInv s := Exec.invariant (fun _ _ _ h hs => h.step hs) hrun lruInv_boot
  obtain ⟨l, hl⟩ := h.lru
  exact ⟨⟨l, hl⟩, hl.recycles⟩

/-- Two buffers are taken, and the second one is released before the first. -/
def takeTwo : List CacheOp :=
  [.bget 1 5, .bget 1 6, .brelse ⟨1, by decide⟩, .brelse oldest]

/-- A run in which the buffer that was taken first comes first. -/
theorem bufferList_exactLru_two :
    ∃ s, runAll Timed.step Timed.boot takeTwo = some s ∧ Before s.last oldest ⟨1, by decide⟩ ∧
      (∃ l, Lru s l) ∧ Recycles s := by
  obtain ⟨s, hs, hfirst, hsecond⟩ : ∃ s, runAll Timed.step Timed.boot takeTwo = some s ∧
      s.last oldest = some 3 ∧ s.last ⟨1, by decide⟩ = some 2 := by
    have hend : (runAll Timed.step Timed.boot takeTwo).any
        (fun s => s.last oldest = some 3 ∧ s.last ⟨1, by decide⟩ = some 2) = true := by
      decide +kernel
    obtain ⟨s, hs, hb⟩ := (Option.any_eq_true _ _).mp hend
    exact ⟨s, hs, of_decide_eq_true hb⟩
  refine ⟨s, hs, ?_, bufferList_exactLru (exec_of_runAll Timed.step hs)⟩
  rw [Before, hfirst, hsecond]
  decide

end Xv6.Bio

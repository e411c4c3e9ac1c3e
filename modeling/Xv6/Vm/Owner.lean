import Xv6.Vm.Phys

/-! # Who owns which page

Every page of the memory has one owner: it is free, the page directory of an address space, one of
its page tables, one of its pages, or in some other use. `Owned` says that the memory agrees with
this: the free list runs through exactly the free pages, and the entries of directories and tables
point to exactly the tables and pages of their address space. -/

namespace Xv6.Vm

open Lib

open Function (update update_apply)

/-- The owner of a page; an address space is named by the page of its directory. -/
inductive Owner
  /-- Not a page that the allocator manages. -/
  | none
  | free
  /-- A page directory. -/
  | dir
  /-- The page table number `i` of the address space `d`. -/
  | tab (d i : Nat)
  /-- The page at the virtual page number `v` of the address space `d`. -/
  | page (d v : Nat)
  /-- Taken from the allocator and used otherwise. -/
  | held
  deriving DecidableEq

/-- The tables of an address space. -/
def Owner.isTab (d : Nat) : Owner → Bool
  | .tab d' _ => d' = d
  | _ => false

/-- The pages of an address space in a range. -/
def Owner.isPage (d lo hi : Nat) : Owner → Bool
  | .page d' v => d' = d ∧ lo ≤ v ∧ v < hi
  | _ => false

/-- The owners whose pages the memory manager looks into. -/
def Owner.pinned : Owner → Prop
  | .free | .dir | .tab _ _ => True
  | _ => False

/-- The entry `i` of the directory or table at page `p`. -/
def entry (mem : Nat → UInt8) (p i : Nat) : Nat := le32 mem (p * 4096 + 4 * i)

/-- The entry that points to a page. -/
def pteOf (p : Nat) : Nat := p * 4096 + 373

/-- The free list from address `a` on runs through the given pages. -/
def FreeChain (mem : Nat → UInt8) : Nat → List Nat → Prop
  | a, [] => a = 0
  | a, p :: ps => a = p * 4096 ∧ p ≠ 0 ∧ FreeChain mem (le32 mem (p * 4096)) ps

/-- **The memory agrees with the owners of its pages.** -/
structure Owned (s : Phys) (own : Nat → Owner) (fl : List Nat) : Prop where
  /-- Pages are where `kfree` accepts them. -/
  valid : ∀ p, own p ≠ .none → 256 ≤ p ∧ p < 577536
  chain : FreeChain s.mem s.freelist fl
  free : ∀ p, p ∈ fl ↔ own p = .free
  nodup : fl.Nodup
  /-- The entries of a directory. -/
  dir : ∀ d i, own d = .dir → i < 1024 →
    (∃ t, own t = .tab d i ∧ entry s.mem d i = pteOf t) ∨
    ((∀ t, own t ≠ .tab d i) ∧ entry s.mem d i = 0)
  /-- The entries of a table. -/
  tab : ∀ t d i j, own t = .tab d i → j < 1024 →
    (∃ q, own q = .page d (1024 * i + j) ∧ entry s.mem t j = pteOf q) ∨
    ((∀ q, own q ≠ .page d (1024 * i + j)) ∧ entry s.mem t j = 0)
  tabDir : ∀ t d i, own t = .tab d i → own d = .dir ∧ i < 1024
  pageTab : ∀ q d v, own q = .page d v → ∃ t, own t = .tab d (v / 1024)
  tabInj : ∀ t t' d i, own t = .tab d i → own t' = .tab d i → t = t'
  pageInj : ∀ q q' d v, own q = .page d v → own q' = .page d v → q = q'

/-! ## Memory -/

/-- The memories agree outside a page. -/
def AgreeOff (p : Nat) (m m' : Nat → UInt8) : Prop := ∀ x, x / 4096 ≠ p → m' x = m x

variable {p : Nat} {m : Nat → UInt8} {fl : List Nat} {own : Nat → Owner} {s : Phys}

theorem agreeOff_fill {c : UInt8} : AgreeOff p m (fill m (p * 4096) c PGSIZE) := by
  intro x hx
  rw [fill, if_neg]
  unfold PGSIZE
  omega

theorem agreeOff_put {p off : Nat} {bs : List UInt8} (h : off + bs.length ≤ 4096) :
    AgreeOff p m (put m (p * 4096 + off) bs) := by
  intro x hx
  exact put_of_notMem _ _ _ (by omega)

theorem agreeOff_put_zero {bs : List UInt8} (h : bs.length ≤ 4096) :
    AgreeOff p m (put m (p * 4096) bs) := by
  intro x hx
  exact put_of_notMem _ _ _ (by omega)

theorem AgreeOff.trans {m m' m'' : Nat → UInt8} (h : AgreeOff p m m') (h' : AgreeOff p m' m'') :
    AgreeOff p m m'' :=
  fun x hx => (h' x hx).trans (h x hx)

theorem AgreeOff.entry {m m' : Nat → UInt8} (h : AgreeOff p m m') {q i : Nat} (hq : q ≠ p)
    (hi : i < 1024) : entry m' q i = entry m q i :=
  le32_congr fun k hk => h _ (by omega)

theorem entry_zero (m : Nat → UInt8) (p : Nat) : entry m p 0 = le32 m (p * 4096) := by
  rw [Vm.entry, Nat.mul_zero, Nat.add_zero]

/-- The free list does not depend on the contents of pages that are not free. -/
theorem FreeChain.congr {m m' : Nat → UInt8} (h : ∀ p ∈ fl, entry m' p 0 = entry m p 0) {a : Nat}
    (hc : FreeChain m a fl) :
    FreeChain m' a fl := by
  induction fl generalizing a with
  | nil => exact hc
  | cons p ps ih =>
      obtain ⟨ha, hp, hrest⟩ := hc
      have hnext := h p (.head _)
      rw [entry_zero, entry_zero] at hnext
      refine ⟨ha, hp, ?_⟩
      rw [hnext]
      exact ih (fun q hq => h q (.tail _ hq)) hrest

/-- The free list is determined by the memory. -/
theorem FreeChain.unique {a : Nat} {fl fl' : List Nat} (h : FreeChain m a fl)
    (h' : FreeChain m a fl') : fl = fl' := by
  induction fl generalizing a fl' with
  | nil =>
      cases fl' with
      | nil => rfl
      | cons p ps =>
          obtain ⟨ha, hp, -⟩ := h'
          have h0 : a = 0 := h
          omega
  | cons p ps ih =>
      obtain ⟨ha, hp, hrest⟩ := h
      cases fl' with
      | nil =>
          have h0 : a = 0 := h'
          omega
      | cons q qs =>
          obtain ⟨ha', hq, hrest'⟩ := h'
          obtain rfl : p = q := by omega
          rw [ih hrest hrest']

/-! ## Entries -/

theorem pteOf_eq_or (p : Nat) : p * 4096 ||| PTEL_DEFAULT = pteOf p := by
  have hp : p * 4096 = p <<< 12 := by rw [Nat.shiftLeft_eq]
  rw [pteOf, hp]
  exact (Nat.shiftLeft_add_eq_or_of_lt (by decide) p).symm

theorem pteOf_and (p : Nat) : pteOf p &&& PTEL_V = 256 := by
  have hp : pteOf p = p <<< 12 ||| 373 := by
    rw [Nat.shiftLeft_add_eq_or_of_lt (by decide) p |>.symm, Nat.shiftLeft_eq]
    rfl
  rw [hp, Nat.and_or_distrib_right]
  have h0 : p <<< 12 &&& PTEL_V = 0 := by
    apply Nat.eq_of_testBit_eq
    intro i
    rw [Nat.testBit_and, Nat.testBit_shiftLeft, Nat.zero_testBit]
    by_cases hi : 12 ≤ i
    · have hv : PTEL_V.testBit i = false := Nat.testBit_lt_two_pow
        (lt_of_lt_of_le (by decide : PTEL_V < 2 ^ 12) (Nat.pow_le_pow_right (by decide) hi))
      rw [hv, Bool.and_false]
    · simp [hi]
  rw [h0]
  rfl

theorem pteAddr_pteOf (p : Nat) : pteAddr (pteOf p) = p * 4096 := by
  unfold pteAddr pteOf PGSIZE
  omega

/-! ## Changes of ownership -/

/-- Only the entries of pinned pages matter. -/
theorem Owned.congr {s s' : Phys} (h : Owned s own fl) (hfl : s'.freelist = s.freelist)
    (he : ∀ p i, (own p).pinned → i < 1024 → entry s'.mem p i = entry s.mem p i) :
    Owned s' own fl where
  valid := h.valid
  chain := by
    rw [hfl]
    refine h.chain.congr fun p hp => he p 0 ?_ (by decide)
    rw [(h.free p).mp hp]
    trivial
  free := h.free
  nodup := h.nodup
  dir d i hd hi := by
    rw [he d i (by rw [hd]; trivial) hi]
    exact h.dir d i hd hi
  tab t d i j ht hj := by
    rw [he t j (by rw [ht]; trivial) hj]
    exact h.tab t d i j ht hj
  tabDir := h.tabDir
  pageTab := h.pageTab
  tabInj := h.tabInj
  pageInj := h.pageInj

/-- A page that is not pinned may be overwritten. -/
theorem Owned.write (h : Owned s own fl) (hp : ¬ (own p).pinned) (hm : AgreeOff p s.mem m) :
    Owned { s with mem := m } own fl :=
  h.congr rfl fun q i hq hi => hm.entry (by rintro rfl; exact hp hq) hi

/-- The first free page. -/
theorem Owned.head_free {fl fl' : List Nat} (h : Owned s own fl) (hfl : fl = p :: fl') :
    own p = .free :=
  (h.free p).mp (hfl ▸ .head _)

/-- The first two free pages. -/
theorem Owned.head_ne {p q : Nat} {fl fl' : List Nat} (h : Owned s own fl)
    (hfl : fl = p :: q :: fl') : p ≠ q := by
  rintro rfl
  exact (List.nodup_cons.mp (hfl ▸ h.nodup)).1 (.head _)

/-- The first free page is taken. -/
theorem Owned.take (h : Owned s own (p :: fl)) :
    Owned { s with freelist := le32 s.mem (p * 4096) } (update own p .held) fl := by
  obtain ⟨hvalid, hchain, hfree, hnodup, hdir, htab, htabDir, hpageTab, htabInj, hpageInj⟩ := h
  have hp : own p = .free := (hfree p).mp (.head _)
  have hnp : p ∉ fl := (List.nodup_cons.mp hnodup).1
  refine ⟨?_, hchain.2.2, ?_, (List.nodup_cons.mp hnodup).2, ?_, ?_, ?_, ?_, ?_, ?_⟩ <;>
    simp only [update_apply] <;> grind

/-- Entries that are written. -/
theorem entry_putWord (m : Nat → UInt8) (p i v q j : Nat) (hi : i < 1024) (hj : j < 1024)
    (hv : v < 4294967296) :
    entry (put m (p * 4096 + 4 * i) (bytes32 v)) q j =
      if q = p ∧ j = i then v else entry m q j := by
  by_cases hqj : q = p ∧ j = i
  · obtain ⟨rfl, rfl⟩ := hqj
    rw [if_pos ⟨rfl, rfl⟩, Vm.entry, le32_put_self, Nat.mod_eq_of_lt hv]
  · rw [if_neg hqj]
    refine le32_put_of_disjoint _ _ _ ?_
    rw [length_bytes32]
    omega

section

variable (h : Owned s own fl)

include h

theorem Owned.freelist_lt : s.freelist < 4294967296 := by
  cases fl with
  | nil =>
      have h0 : s.freelist = 0 := h.chain
      omega
  | cons p fl =>
      have hp := h.valid p (by rw [(h.free p).mp (.head _)]; exact Owner.noConfusion)
      have ha := h.chain.1
      omega

/-- A page in other use is given back. -/
theorem Owned.give (hp : own p = .held) (hm : AgreeOff p s.mem m)
    (hnext : le32 m (p * 4096) = s.freelist) :
    Owned ⟨m, p * 4096⟩ (update own p .free) (p :: fl) := by
  obtain ⟨hvalid, hchain, hfree, hnodup, hdir, htab, htabDir, hpageTab, htabInj, hpageInj⟩ :=
    h.write (p := p) (by rw [hp]; exact id) hm
  have hnp : p ∉ fl := fun hmem => by
    have := (hfree p).mp hmem
    rw [hp] at this
    cases this
  have hpv := hvalid p (by rw [hp]; exact Owner.noConfusion)
  refine ⟨?_, ⟨rfl, by omega, by rw [hnext]; exact hchain⟩, ?_, List.nodup_cons.mpr ⟨hnp, hnodup⟩,
    ?_, ?_, ?_, ?_, ?_, ?_⟩ <;>
    simp only [update_apply] <;> grind

/-- A page outside the allocator comes into other use. -/
theorem Owned.adopt (hp : own p = .none) (hv : 256 ≤ p ∧ p < 577536) :
    Owned s (update own p .held) fl := by
  obtain ⟨hvalid, hchain, hfree, hnodup, hdir, htab, htabDir, hpageTab, htabInj, hpageInj⟩ := h
  refine ⟨?_, hchain, ?_, hnodup, ?_, ?_, ?_, ?_, ?_, ?_⟩ <;>
    simp only [update_apply] <;> grind

/-- A page in other use that is zero becomes a page directory. -/
theorem Owned.newDir {d : Nat} (hd : own d = .held)
    (hzero : ∀ i < 1024, entry s.mem d i = 0) :
    Owned s (update own d .dir) fl := by
  obtain ⟨hvalid, hchain, hfree, hnodup, hdir, htab, htabDir, hpageTab, htabInj, hpageInj⟩ := h
  refine ⟨?_, hchain, ?_, hnodup, ?_, ?_, ?_, ?_, ?_, ?_⟩ <;>
    simp only [update_apply] <;> grind

/-- A word is written to a page that is not free: the free list and the entries. -/
theorem Owned.putWord {p i v : Nat} (hp : own p ≠ .free) (hi : i < 1024)
    (hv : v < 4294967296) :
    ∃ m, put s.mem (p * 4096 + 4 * i) (bytes32 v) = m ∧ FreeChain m s.freelist fl ∧
      ∀ q j, j < 1024 → entry m q j = if q = p ∧ j = i then v else entry s.mem q j := by
  refine ⟨_, rfl, ?_, fun q j hj => entry_putWord _ _ _ _ _ _ hi hj hv⟩
  refine h.chain.congr fun q hq => (agreeOff_put (by simp; omega)).entry ?_ (by decide)
  rintro rfl
  exact hp ((h.free q).mp hq)

/-- A page in other use that is zero becomes a page table, and the directory points to it. -/
theorem Owned.mapTab {d t i : Nat} (hd : own d = .dir) (hi : i < 1024)
    (hnone : ∀ t, own t ≠ .tab d i) (ht : own t = .held) (hzero : ∀ j < 1024, entry s.mem t j = 0) :
    Owned { s with mem := put s.mem (d * 4096 + 4 * i) (bytes32 (pteOf t)) }
      (update own t (.tab d i)) fl := by
  have htv := h.valid t (by rw [ht]; exact Owner.noConfusion)
  obtain ⟨m, hm, hchain, hent⟩ := h.putWord (p := d) (v := pteOf t)
    (by rw [hd]; exact Owner.noConfusion) hi (by unfold pteOf; omega)
  rw [hm]
  clear hm
  obtain ⟨hvalid, -, hfree, hnodup, hdir, htab, htabDir, hpageTab, htabInj, hpageInj⟩ := h
  refine ⟨?_, hchain, ?_, hnodup, fun d' i' hd' hi' => ?_, fun t' d' i' j' ht' hj' => ?_,
    ?_, ?_, ?_, ?_⟩
  -- the entries of directories and tables
  on_goal 3 =>
    have hold := hdir d' i'
    have hnew := hent d' i' hi'
  on_goal 4 =>
    have hold := htab t' d' i' j'
    have hnew := hent t' j' hj'
    have hdiv' : (1024 * i' + j') / 1024 = i' := by omega
  all_goals
    simp only [update_apply] at *
    grind

/-- A page in other use becomes a page of an address space, and the table points to it. -/
theorem Owned.mapPage {d t i j q : Nat} (ht : own t = .tab d i) (hj : j < 1024)
    (hnone : ∀ q, own q ≠ .page d (1024 * i + j)) (hq : own q = .held) :
    Owned { s with mem := put s.mem (t * 4096 + 4 * j) (bytes32 (pteOf q)) }
      (update own q (.page d (1024 * i + j))) fl := by
  have hqv := h.valid q (by rw [hq]; exact Owner.noConfusion)
  obtain ⟨m, hm, hchain, hent⟩ := h.putWord (p := t) (v := pteOf q)
    (by rw [ht]; exact Owner.noConfusion) hj (by unfold pteOf; omega)
  rw [hm]
  clear hm
  obtain ⟨hvalid, -, hfree, hnodup, hdir, htab, htabDir, hpageTab, htabInj, hpageInj⟩ := h
  have hdiv : (1024 * i + j) / 1024 = i := by omega
  refine ⟨?_, hchain, ?_, hnodup, fun d' i' hd' hi' => ?_, fun t' d' i' j' ht' hj' => ?_,
    ?_, ?_, ?_, ?_⟩
  -- the entries of directories and tables
  on_goal 3 =>
    have hold := hdir d' i'
    have hnew := hent d' i' hi'
  on_goal 4 =>
    have hold := htab t' d' i' j'
    have hnew := hent t' j' hj'
    have hdiv' : (1024 * i' + j') / 1024 = i' := by omega
  all_goals
    simp only [update_apply] at *
    grind

/-- A page of an address space is taken out of its table. -/
theorem Owned.unmapPage {d t i j q : Nat} (ht : own t = .tab d i)
    (hj : j < 1024) (hq : own q = .page d (1024 * i + j)) :
    Owned { s with mem := put s.mem (t * 4096 + 4 * j) (bytes32 0) }
      (update own q .held) fl := by
  obtain ⟨m, hm, hchain, hent⟩ := h.putWord (p := t) (v := 0)
    (by rw [ht]; exact Owner.noConfusion) hj (by decide)
  rw [hm]
  clear hm
  obtain ⟨hvalid, -, hfree, hnodup, hdir, htab, htabDir, hpageTab, htabInj, hpageInj⟩ := h
  refine ⟨?_, hchain, ?_, hnodup, fun d' i' hd' hi' => ?_, fun t' d' i' j' ht' hj' => ?_,
    ?_, fun q' d' v hq' => ?_, ?_, ?_⟩
  -- the entries of directories and tables
  on_goal 3 =>
    have hold := hdir d' i'
    have hnew := hent d' i' hi'
  on_goal 4 =>
    have hold := htab t' d' i' j'
    have hnew := hent t' j' hj'
    have hsame : 1024 * i' + j' = 1024 * i + j → i' = i ∧ j' = j := by omega
  on_goal 6 =>
    have hold := hpageTab q' d' v
    have hne : ∀ w, own w = .tab d' (v / 1024) → w ≠ q := by
      rintro w hw rfl
      rw [hq] at hw
      cases hw
  all_goals
    simp only [update_apply] at *
    grind

end

/-- The directory of an address space without pages and its tables are put to other use. -/
theorem Owned.dropSpace {own own' : Nat → Owner} {d : Nat} (h : Owned s own fl) (hd : own d = .dir)
    (hnone : ∀ q v, own q ≠ .page d v)
    (hown : ∀ p, own' p = if p = d ∨ (own p).isTab d then .held else own p) :
    Owned s own' fl := by
  obtain ⟨hvalid, hchain, hfree, hnodup, hdir, htab, htabDir, hpageTab, htabInj, hpageInj⟩ := h
  refine ⟨?_, hchain, ?_, hnodup, fun d' i' hd' hi' => ?_, fun t' d' i' j' ht' hj' => ?_,
    ?_, ?_, ?_, ?_⟩
  on_goal 3 =>
    have hold := hdir d' i'
  on_goal 4 =>
    have hold := htab t' d' i' j'
  all_goals
    simp only [hown] at *
    grind [Owner.isTab]

end Xv6.Vm

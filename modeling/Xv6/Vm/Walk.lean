import Xv6.Vm.Owner

/-! # The allocator and the page table walk

What the functions at the bottom of `vm.c` do to the owners of the pages: each takes a postcondition
that holds for every outcome the owners allow. -/

namespace Xv6.Vm

open Lib Run

open Function (update update_idem update_of_ne update_self)

variable {s : Phys} {own : Nat → Owner} {fl : List Nat} {E : Stop → Prop}

/-! ## Single memory operations -/

@[simp] theorem post_load {a : Nat} {Q : Nat → Phys → Prop} :
    Post (load a) E Q s ↔ Q (le32 s.mem a) s := by
  rw [load, post_bind, post_get, post_pure]

variable {Q : Unit → Phys → Prop}

@[simp] theorem post_store {a : Nat} {bs : List UInt8} :
    Post (store a bs) E Q s ↔ Q () { s with mem := put s.mem a bs } :=
  post_modify

@[simp] theorem post_storeWord {a v : Nat} :
    Post (storeWord a v) E Q s ↔ Q () { s with mem := put s.mem a (bytes32 v) } :=
  post_store

@[simp] theorem post_memset {a n : Nat} {c : UInt8} :
    Post (memset a c n) E Q s ↔ Q () { s with mem := fill s.mem a c n } :=
  post_modify

@[simp] theorem post_panic {α : Type} {msg : String} {Q : α → Phys → Prop} :
    Post (panic msg : VmM α) E Q s ↔ E (.panic msg) :=
  post_stop

/-- A page that has been cleared has zero entries. -/
theorem entry_fill (m : Nat → UInt8) (p i : Nat) (hi : i < 1024) :
    entry (fill m (p * 4096) 0 PGSIZE) p i = 0 := by
  have hbyte : ∀ k < 4, fill m (p * 4096) 0 PGSIZE (p * 4096 + 4 * i + k) = 0 := by
    intro k hk
    rw [fill, if_pos]
    unfold PGSIZE
    omega
  have h0 := hbyte 0 (by omega)
  have h1 := hbyte 1 (by omega)
  have h2 := hbyte 2 (by omega)
  have h3 := hbyte 3 (by omega)
  rw [Nat.add_zero] at h0
  rw [entry, le32, le16, le16, h0, h1, h2, h3]
  rfl

/-! ## `kalloc` and `kfree` -/

/-- **`kalloc`** takes the first page of the free list. -/
theorem post_kalloc (h : Owned s own fl) {Q : Option Nat → Phys → Prop} (hnone : fl = [] → Q none s)
    (hsome : ∀ p fl' t, fl = p :: fl' → t.mem = s.mem →
      Owned t (update own p .held) fl' → Q (some (p * 4096)) t) :
    Post kalloc E Q s := by
  cases fl with
  | nil =>
      have h0 : s.freelist = 0 := h.chain
      simp only [kalloc, post_bind, post_get, h0, if_true, post_pure]
      exact hnone rfl
  | cons p fl =>
      obtain ⟨ha, hp, -⟩ := h.chain
      have hne : s.freelist ≠ 0 := by omega
      simp only [kalloc, post_bind, post_get, hne, if_false, post_modify, post_pure]
      rw [ha]
      exact hsome p fl _ rfl rfl h.take

/-- What `kfree` does to the memory. -/
theorem post_kfree_eq {p : Nat} (hv : 256 ≤ p ∧ p < 577536)
    (hQ : Q () ⟨put (fill s.mem (p * 4096) 1 PGSIZE) (p * 4096) (bytes32 s.freelist), p * 4096⟩) :
    Post (kfree (p * 4096)) E Q s := by
  have hcheck : ¬ (p * 4096 % PGSIZE ≠ 0 ∨ p * 4096 < 1024 * 1024 ∨ p * 4096 ≥ PHYSTOP) := by
    unfold PGSIZE PHYSTOP
    omega
  rw [kfree, if_neg hcheck, post_bind, post_memset, post_modify]
  exact hQ

/-- **`kfree`** of a page in other use puts it in front of the free list. -/
theorem post_kfree (h : Owned s own fl) {p : Nat} (hp : own p = .held)
    (hQ : ∀ t, AgreeOff p s.mem t.mem → Owned t (update own p .free) (p :: fl) → Q () t) :
    Post (kfree (p * 4096)) E Q s := by
  have hv := h.valid p (by rw [hp]; exact Owner.noConfusion)
  have hagree : AgreeOff p s.mem
      (put (fill s.mem (p * 4096) 1 PGSIZE) (p * 4096) (bytes32 s.freelist)) :=
    agreeOff_fill.trans (agreeOff_put_zero (by simp))
  refine post_kfree_eq hv (hQ _ hagree (h.give hp hagree ?_))
  rw [le32_put_self, Nat.mod_eq_of_lt h.freelist_lt]

/-! ## `walkpgdir` -/

theorem pdx_page {v : Nat} (hv : v < 1048576) : pdx (v * 4096) = v / 1024 := by
  unfold pdx
  omega

theorem ptx_page (v : Nat) : ptx (v * 4096) = v % 1024 := by
  unfold ptx
  omega

/-- **`walkpgdir` without creation.** -/
theorem post_walkpgdir (h : Owned s own fl) {d v : Nat} (hd : own d = .dir) (hv : v < 1048576)
    {Q : Option Nat → Phys → Prop}
    (htab : ∀ t, own t = .tab d (v / 1024) → Q (some (t * 4096 + 4 * (v % 1024))) s)
    (hnone : (∀ t, own t ≠ .tab d (v / 1024)) → Q none s) :
    Post (walkpgdir (d * 4096) (v * 4096) false) E Q s := by
  have hi : v / 1024 < 1024 := by omega
  simp only [walkpgdir, post_bind, post_load, pdx_page hv, ptx_page]
  have hentry : le32 s.mem (d * 4096 + 4 * (v / 1024)) = entry s.mem d (v / 1024) := rfl
  rw [hentry]
  rcases h.dir d _ hd hi with ⟨t, ht, he⟩ | ⟨hno, he⟩
  · rw [he, if_pos (by rw [pteOf_and]; decide), pteAddr_pteOf, post_pure]
    exact htab t ht
  · rw [he, if_neg (by decide), if_pos trivial, post_pure]
    exact hnone hno

/-- The pages that are written to when a page of the address space `d` is mapped: its directory, its
tables, and free pages for new tables. -/
def Scratch (own : Nat → Owner) (d p : Nat) : Prop :=
  p = d ∨ own p = .free ∨ ∃ i, own p = .tab d i

/-- The memories agree on all other pages. -/
def KeepsRest (own : Nat → Owner) (d : Nat) (m m' : Nat → UInt8) : Prop :=
  ∀ x, ¬ Scratch own d (x / 4096) → m' x = m x

theorem KeepsRest.of_agreeOff {d p : Nat} {m m' : Nat → UInt8} (h : AgreeOff p m m')
    (hp : Scratch own d p) : KeepsRest own d m m' := by
  intro x hx
  refine h x ?_
  rintro rfl
  exact hx hp

theorem KeepsRest.trans {d : Nat} {m m' m'' : Nat → UInt8} (h : KeepsRest own d m m')
    (h' : KeepsRest own d m' m'') : KeepsRest own d m m'' :=
  fun x hx => (h' x hx).trans (h x hx)

/-- The end of `mappages` once the table is there. -/
theorem post_mapEntry (h : Owned s own fl) {d v q t : Nat} (ht : own t = .tab d (v / 1024))
    (hq : own q = .held) (hfree : ∀ p, own p ≠ .page d v) {pgdir fuel : Nat}
    {Q : Bool → Phys → Prop}
    (hQ : ∀ u, Owned u (update own q (.page d v)) fl → AgreeOff t s.mem u.mem →
      Q true u) :
    Post (do
      let w ← load (t * 4096 + 4 * (v % 1024))
      if w &&& PTEL_V ≠ 0 then panic "remap"
      else do
        storeWord (t * 4096 + 4 * (v % 1024)) (q * 4096 ||| PTEL_DEFAULT ||| PTEL_V)
        if v * 4096 = v * 4096 then pure true
        else
          mappagesLoop pgdir (v * 4096) PTEL_DEFAULT fuel ((v * 4096 + PGSIZE) % 4294967296)
            ((q * 4096 + PGSIZE) % 4294967296)) E Q s := by
  have hj : v % 1024 < 1024 := by omega
  have hsplit : 1024 * (v / 1024) + v % 1024 = v := by omega
  have hpte : q * 4096 ||| PTEL_DEFAULT ||| PTEL_V = pteOf q := by
    rw [Nat.lor_assoc]
    exact pteOf_eq_or q
  have hzero : le32 s.mem (t * 4096 + 4 * (v % 1024)) = 0 := by
    rcases h.tab t d _ _ ht hj with ⟨p, hp, -⟩ | ⟨-, h0⟩
    · rw [hsplit] at hp
      exact absurd hp (hfree p)
    · exact h0
  simp only [post_bind, post_load]
  rw [hzero, if_neg (by decide)]
  simp only [post_bind, post_storeWord, if_true, post_pure, hpte]
  have hmap := h.mapPage ht hj (by rw [hsplit]; exact hfree) hq
  rw [hsplit] at hmap
  exact hQ _ hmap (agreeOff_put (by rw [length_bytes32]; omega))

/-- **`mappages` of one page**: it is mapped unless there is no memory for its table. -/
theorem post_mappages (h : Owned s own fl) {d v q fuel : Nat} (hd : own d = .dir)
    (hv : v < 1048576) (hfuel : 0 < fuel) (hq : own q = .held) (hfree : ∀ p, own p ≠ .page d v)
    {Q : Bool → Phys → Prop}
    (htab : ∀ t u, own t = .tab d (v / 1024) → Owned u (update own q (.page d v)) fl →
      KeepsRest own d s.mem u.mem → Q true u)
    (hnew : ∀ t fl' u, (∀ t, own t ≠ .tab d (v / 1024)) → fl = t :: fl' →
      Owned u (update (update own t (.tab d (v / 1024))) q (.page d v)) fl' →
      KeepsRest own d s.mem u.mem → Q true u)
    (hshort : (∀ t, own t ≠ .tab d (v / 1024)) → fl = [] → Q false s) :
    Post (mappages fuel (d * 4096) (v * 4096) PGSIZE (q * 4096) PTEL_DEFAULT) E Q s := by
  obtain ⟨fuel, rfl⟩ : ∃ n, fuel = n + 1 := ⟨fuel - 1, by omega⟩
  have hi : v / 1024 < 1024 := by omega
  have hlast : pgrounddown ((v * 4096 + PGSIZE + 4294967296 - 1) % 4294967296) = v * 4096 := by
    unfold pgrounddown PGSIZE
    omega
  have hla : pgrounddown (v * 4096) = v * 4096 := by
    unfold pgrounddown PGSIZE
    omega
  have hdir : le32 s.mem (d * 4096 + 4 * (v / 1024)) = entry s.mem d (v / 1024) := rfl
  rw [mappages, hlast, hla, mappagesLoop, post_bind, walkpgdir, post_bind, post_load, pdx_page hv,
    ptx_page, hdir]
  rcases h.dir d _ hd hi with ⟨t, ht, he⟩ | ⟨hno, he⟩
  · -- the table is there
    rw [he, if_pos (by rw [pteOf_and]; decide), pteAddr_pteOf, post_pure]
    exact post_mapEntry h ht hq hfree fun u hu hmem =>
      htab t u ht hu (.of_agreeOff hmem (.inr (.inr ⟨_, ht⟩)))
  · -- a new table is needed
    rw [he, if_neg (by decide), if_neg (by decide), post_bind]
    refine post_kalloc h (fun hnil => ?_) fun t fl' u hfl hmem hu => ?_
    · rw [post_pure, post_pure]
      exact hshort hno hnil
    have htfree : own t = .free := h.head_free hfl
    have hqt : q ≠ t := by
      rintro rfl
      cases hq.symm.trans htfree
    have hdt : d ≠ t := by
      rintro rfl
      cases hd.symm.trans htfree
    have hself : update own t Owner.held t = .held := update_self _ _ _
    have hclear := hu.write (p := t) (by rw [hself]; exact id)
      (agreeOff_fill (p := t) (m := u.mem) (c := 0))
    have hmapped := hclear.mapTab (d := d) (t := t) (i := v / 1024)
      (by rw [update_of_ne hdt]; exact hd) hi
      (fun t' => by
        by_cases ht' : t' = t
        · subst ht'
          rw [hself]
          exact Owner.noConfusion
        · rw [update_of_ne ht']
          exact hno t') hself (fun j hj => entry_fill _ _ _ hj)
    rw [update_idem] at hmapped
    have htab' : update own t (.tab d (v / 1024)) t = .tab d (v / 1024) :=
      update_self _ _ _
    have hq' : update own t (.tab d (v / 1024)) q = .held := by
      rw [update_of_ne hqt]
      exact hq
    have hfree' : ∀ p, update own t (.tab d (v / 1024)) p ≠ .page d v := by
      intro p
      by_cases hp : p = t
      · rw [hp, htab']
        exact Owner.noConfusion
      · rw [update_of_ne hp]
        exact hfree p
    rw [post_bind, post_memset, post_bind, post_storeWord, post_pure, pteOf_eq_or t]
    have htscratch : Scratch own d t := .inr (.inl htfree)
    have hkeeps : KeepsRest own d s.mem (put (fill u.mem (t * 4096) 0 PGSIZE)
        (d * 4096 + 4 * (v / 1024)) (bytes32 (pteOf t))) := by
      rw [hmem]
      exact (KeepsRest.of_agreeOff agreeOff_fill htscratch).trans
        (.of_agreeOff (agreeOff_put (by rw [length_bytes32]; omega)) (.inl rfl))
    exact post_mapEntry hmapped htab' hq' hfree' fun w hw hlast =>
      hnew t fl' w hno hfl hw (hkeeps.trans (.of_agreeOff hlast htscratch))

end Xv6.Vm

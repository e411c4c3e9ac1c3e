import Xv6.Vm.Space

/-! # The TLB of the running process

`switchuvm` of `vm.c` loads the pages of the running process into the UTLB, the entry being selected
by `MMUCR.URC`. The UTLB has 64 entries, and `do_tlb_miss` loads nothing, so that a page whose entry
has been overwritten stays out of reach: `switchuvm_covers_iff` says for which sizes of a process
this does not happen. -/

namespace Xv6.Vm

open Lib Lib.Run

/-! ## The memory management unit -/

/-- An entry of the UTLB: what `PTEH` and `PTEL` held when it was written. -/
structure TlbEntry where
  pteh : Nat
  ptel : Nat
  deriving DecidableEq

/-- **The memory management unit**: the registers that the kernel writes, and the valid entries of
the UTLB. -/
structure Mmu where
  mmucr : Nat
  pteh : Nat
  ptel : Nat
  utlb : Fin 64 → Option TlbEntry

/-- `MMUCR.URC`, the bits 10 to 15. -/
def urc (mmucr : Nat) : Fin 64 := ⟨mmucr / 1024 % 64, Nat.mod_lt _ (by decide)⟩

/-- `clear_tlb`: the bit `TI`, which reads as 0, makes all entries invalid. -/
def clearTlb (u : Mmu) : Mmu := { u with utlb := fun _ => none }

/-- `set_urc`. -/
def setUrc (u : Mmu) (val : Nat) : Mmu :=
  let val := if 64 ≤ val then 63 else val
  { u with mmucr := u.mmucr &&& 0xffff03ff ||| val <<< 10 &&& 0x0000fc00 }

/-- `set_pteh`, `set_ptel` and `ldtlb`: the entry selected by `URC` is written. -/
def ldtlb (u : Mmu) (pteh ptel : Nat) : Mmu :=
  { u with
    pteh := pteh
    ptel := ptel
    utlb := Function.update u.utlb (urc u.mmucr) (some ⟨pteh, ptel⟩) }

/-! ## `vm.c` -/

/-- `PTE_PERM(pte)`. -/
def ptePerm (pte : Nat) : Nat := pte &&& 0x1ff

/-- What `tlb_register` puts into `PTEL` for an entry of the page table. -/
def ptelOf (pte : Nat) : Nat := pteAddr pte ||| ptePerm pte

/-- `tlb_register(va)` for the given `proc->pgdir`. -/
def tlbRegister (pgdir va : Nat) (u : Mmu) : VmM Mmu := do
  let pte ← walkpgdir pgdir va false
  let v ← load (pte.getD 0)
  pure (ldtlb u (pteAddr va) (ptelOf v))

/-- The loop of `switchuvm` for the given `proc->pgdir`. -/
def tlbLoop (pgdir : Nat) : (fuel va i : Nat) → Mmu → VmM Mmu
  | 0, _, _, _ => Run.stop .loop
  | fuel + 1, va, i, u => do
      let pte ← walkpgdir pgdir va false
      match pte with
      | none => pure u
      | some pte => do
          let v ← load pte
          if v = 0 then pure u
          else do
            let u ← tlbRegister pgdir va (setUrc u i)
            tlbLoop pgdir fuel ((va + PGSIZE) % 4294967296) ((i + 1) % 64) u

/-- **`switchuvm(p)`** of the running process, whose page directory is given, with the memory
management unit before and after. -/
def switchuvmTlb (fuel pgdir : Nat) (u : Mmu) : VmM Mmu :=
  if pgdir = 0 then panic "switchuvm: no pgdir\n" else tlbLoop pgdir fuel 0 0 (clearTlb u)

/-! ## What the UTLB is for -/

/-- The entry of a page table for an address, if there is a table for it. -/
def pteOfVa (mem : Nat → UInt8) (pgdir va : Nat) : Option Nat :=
  let pde := le32 mem (pgdir + 4 * pdx va)
  if pde &&& PTEL_V ≠ 0 then some (le32 mem (pteAddr pde + 4 * ptx va)) else none

/-- **A page table that maps exactly the pages below `PGROUNDUP(sz)`**: these have an entry, and
the others have none. -/
def MapsBelow (mem : Nat → UInt8) (pgdir sz : Nat) : Prop :=
  ∀ v < 1048576,
    (∃ pte, pteOfVa mem pgdir (v * 4096) = some pte ∧ pte ≠ 0) ↔ v * 4096 < pgroundup sz

/-- **The UTLB covers a process**: for every mapped page there is an entry with its address and its
permissions, and there is no entry for another address. -/
structure Covers (mem : Nat → UInt8) (pgdir sz : Nat) (u : Mmu) : Prop where
  all : ∀ v, v * 4096 < pgroundup sz → ∃ pte i, pteOfVa mem pgdir (v * 4096) = some pte ∧
    u.utlb i = some ⟨v * 4096, ptelOf pte⟩
  only : ∀ i e, u.utlb i = some e → ∃ v, v * 4096 < pgroundup sz ∧ e.pteh = v * 4096

/-! ## The registers -/

/-- `set_urc` selects the entry: the mask keeps the other bits of `MMUCR` only. -/
theorem urc_setUrc (u : Mmu) {i : Nat} (hi : i < 64) : urc (setUrc u i).mmucr = ⟨i, hi⟩ := by
  have hval : (setUrc u i).mmucr = u.mmucr &&& 0xffff03ff ||| i <<< 10 &&& 0x0000fc00 := by
    rw [setUrc, if_neg (by omega)]
  have hkeep : ∀ j < 6, Nat.testBit 0xffff03ff (10 + j) = false := by decide
  have hfield : ∀ j < 6, Nat.testBit 0x0000fc00 (10 + j) = true := by decide
  have hbits : (setUrc u i).mmucr / 2 ^ 10 % 2 ^ 6 = i := by
    rw [hval]
    refine Nat.eq_of_testBit_eq fun j => ?_
    rw [Nat.testBit_mod_two_pow, Nat.testBit_div_two_pow, Nat.add_comm j]
    by_cases hj : j < 6
    · rw [Nat.testBit_or, Nat.testBit_and, Nat.testBit_and, hkeep j hj, hfield j hj,
        Nat.testBit_shiftLeft]
      simp [hj]
    · rw [decide_eq_false hj, Bool.false_and, Nat.testBit_lt_two_pow]
      exact Nat.lt_of_lt_of_le hi (Nat.pow_le_pow_right (n := 2) (by decide) (by omega : 6 ≤ j))
  exact Fin.ext hbits

/-! ## Loading the pages -/

/-- The entry of the UTLB for page `v`, mapped by the given entry of the page table. -/
def pageEntry (pte : Nat → Nat) (v : Nat) : TlbEntry := ⟨v * 4096, ptelOf (pte v)⟩

/-- **The memory management unit after `k` rounds**, for the entries of the page table. -/
def loadPages (pte : Nat → Nat) (u : Mmu) : Nat → Mmu
  | 0 => clearTlb u
  | k + 1 => ldtlb (setUrc (loadPages pte u k) (k % 64)) (k * 4096) (ptelOf (pte k))

variable {pte : Nat → Nat} {u : Mmu}

/-- One round writes the entry of the number of the page modulo 64. -/
theorem utlb_loadPages_succ (k : Nat) :
    (loadPages pte u (k + 1)).utlb = Function.update (loadPages pte u k).utlb
      ⟨k % 64, Nat.mod_lt _ (by decide)⟩ (some (pageEntry pte k)) := by
  show Function.update _ (urc (setUrc (loadPages pte u k) (k % 64)).mmucr) _ = _
  rw [urc_setUrc _ (Nat.mod_lt k (by decide))]
  rfl

/-- **Every entry is that of one of the last 64 pages.** -/
theorem of_utlb_loadPages {k : Nat} {i : Fin 64} {e : TlbEntry}
    (h : (loadPages pte u k).utlb i = some e) :
    ∃ v < k, v % 64 = i ∧ k ≤ v + 64 ∧ e = pageEntry pte v := by
  induction k with
  | zero => nomatch h
  | succ k ih =>
      rw [utlb_loadPages_succ] at h
      by_cases hi : i = ⟨k % 64, Nat.mod_lt _ (by decide)⟩
      · rw [hi, Function.update_self] at h
        exact ⟨k, by omega, by rw [hi], by omega, (Option.some.inj h).symm⟩
      · rw [Function.update_of_ne hi] at h
        obtain ⟨v, hv, hmod, hk, he⟩ := ih h
        have hne : v % 64 ≠ k % 64 := fun hvk => hi (Fin.ext (hmod.symm.trans hvk))
        exact ⟨v, by omega, hmod, by omega, he⟩

/-- **The last 64 pages have their entries.** -/
theorem utlb_loadPages {k v : Nat} (hv : v < k) (hk : k ≤ v + 64) :
    (loadPages pte u k).utlb ⟨v % 64, Nat.mod_lt _ (by decide)⟩ = some (pageEntry pte v) := by
  induction k with
  | zero => omega
  | succ k ih =>
      rw [utlb_loadPages_succ]
      by_cases hvk : v = k
      · subst hvk
        exact Function.update_self ..
      · rw [Function.update_of_ne fun h => ?_]
        · exact ih (by omega) (by omega)
        · have hmod : v % 64 = k % 64 := congrArg Fin.val h
          omega

/-! ## `switchuvm` -/

variable {s : Phys} {E : Stop → Prop}

/-- `walkpgdir` finds the entry of the page table for an address, if there is a table for it. -/
theorem post_walkpgdir_pteOfVa {pgdir va : Nat} {Q : Option Nat → Phys → Prop}
    (hsome : ∀ a, pteOfVa s.mem pgdir va = some (le32 s.mem a) → Q (some a) s)
    (hnone : pteOfVa s.mem pgdir va = none → Q none s) :
    Post (walkpgdir pgdir va false) E Q s := by
  unfold pteOfVa at hsome hnone
  simp only [walkpgdir, post_bind, post_load]
  split
  next hv => exact post_pure.mpr (hsome _ (if_pos hv))
  next hv =>
      rw [if_pos trivial]
      exact post_pure.mpr (hnone (if_neg hv))

/-- **The page table up to its first hole**: the pages below `n` have the entries `pte`, and page
`n` has none. -/
structure Entries (mem : Nat → UInt8) (pgdir n : Nat) (pte : Nat → Nat) : Prop where
  lt : n < 1048576
  some : ∀ v < n, pteOfVa mem pgdir (v * 4096) = some (pte v)
  ne_zero : ∀ v < n, pte v ≠ 0
  hole : ∀ w, pteOfVa mem pgdir (n * 4096) = Option.some w → w = 0

/-- `tlb_register` of a page with an entry. -/
theorem post_tlbRegister {pgdir v w : Nat} (h : pteOfVa s.mem pgdir (v * 4096) = some w)
    {Q : Mmu → Phys → Prop} (hQ : Q (ldtlb u (v * 4096) (ptelOf w)) s) :
    Post (tlbRegister pgdir (v * 4096) u) E Q s := by
  have haddr : pteAddr (v * 4096) = v * 4096 := by
    unfold pteAddr PGSIZE
    omega
  rw [tlbRegister, post_bind]
  refine post_walkpgdir_pteOfVa (fun a ha => ?_) fun hnone => nomatch hnone.symm.trans h
  have hw : le32 s.mem a = w := Option.some.inj (ha.symm.trans h)
  simp only [post_bind, post_load, post_pure, Option.getD_some]
  rw [haddr, hw]
  exact hQ

/-- **The loop of `switchuvm`** from round `k` on: it ends with the pages up to the hole loaded. -/
theorem post_tlbLoop {pgdir n : Nat} (h : Entries s.mem pgdir n pte) {Q : Mmu → Phys → Prop}
    (hQ : Q (loadPages pte u n) s) {fuel k : Nat} (hk : k ≤ n) (hfuel : n - k < fuel) :
    Post (tlbLoop pgdir fuel (k * 4096) (k % 64) (loadPages pte u k)) E Q s := by
  induction fuel generalizing k with
  | zero => omega
  | succ fuel ih =>
      rw [tlbLoop, post_bind]
      rcases Nat.lt_or_eq_of_le hk with hkn | rfl
      · -- a page with an entry is loaded, and the loop goes on
        have hlt := h.lt
        have hi : (k % 64 + 1) % 64 = (k + 1) % 64 := by omega
        have hsome := h.some k hkn
        refine post_walkpgdir_pteOfVa (fun a ha => ?_) fun hnone => nomatch hnone.symm.trans hsome
        have hw : le32 s.mem a = pte k := Option.some.inj (ha.symm.trans hsome)
        simp only [post_bind, post_load]
        rw [hw, if_neg (h.ne_zero k hkn), post_bind, next_page (by omega), hi]
        exact post_tlbRegister hsome (ih hkn (by omega))
      · -- the hole ends the loop
        refine post_walkpgdir_pteOfVa (fun a ha => ?_) fun _ => post_pure.mpr hQ
        simp only [post_bind, post_load]
        rw [if_pos (h.hole _ ha), post_pure]
        exact hQ

/-- **`switchuvm`** loads the pages up to the hole. -/
theorem switchuvmTlb_eq {pgdir n fuel : Nat} (h : Entries s.mem pgdir n pte) (hpgdir : pgdir ≠ 0)
    (hfuel : n < fuel) : switchuvmTlb fuel pgdir u s = .ok (loadPages pte u n, s) := by
  have hpost : Post (switchuvmTlb fuel pgdir u) (fun _ => False)
      (fun u' t => u' = loadPages pte u n ∧ t = s) s := by
    rw [switchuvmTlb, if_neg hpgdir]
    have hloop := post_tlbLoop (E := fun _ => False) h
      (Q := fun u' t => u' = loadPages pte u n ∧ t = s) ⟨rfl, rfl⟩ (Nat.zero_le n) (by omega)
    rwa [Nat.zero_mul] at hloop
  obtain ⟨u', t, heq, rfl, rfl⟩ := hpost.exists_ok
  exact heq

/-! ## Which processes are covered -/

/-- The number of the pages below `PGROUNDUP(sz)`. -/
theorem lt_pgroundup_iff {sz v : Nat} (hsz : sz ≤ USERTOP) :
    v * 4096 < pgroundup sz ↔ v < (sz + 4095) / 4096 := by
  unfold pgroundup PGSIZE
  unfold USERTOP at hsz
  omega

variable {mem : Nat → UInt8}

/-- The entries of a page table that maps exactly the pages below a size. -/
theorem MapsBelow.entries {pgdir sz : Nat} (h : MapsBelow mem pgdir sz) (hsz : sz ≤ USERTOP) :
    Entries mem pgdir ((sz + 4095) / 4096) fun v => (pteOfVa mem pgdir (v * 4096)).getD 0 := by
  have hlt : (sz + 4095) / 4096 < 1048576 := by
    unfold USERTOP at hsz
    omega
  have hmapped : ∀ v < (sz + 4095) / 4096, ∃ w, pteOfVa mem pgdir (v * 4096) = some w ∧ w ≠ 0 :=
    fun v hv => (h v (by omega)).mpr ((lt_pgroundup_iff hsz).mpr hv)
  refine ⟨hlt, fun v hv => ?_, fun v hv => ?_, fun w hw => ?_⟩
  · obtain ⟨w, hw, -⟩ := hmapped v hv
    rw [hw, Option.getD_some]
  · obtain ⟨w, hw, hne⟩ := hmapped v hv
    rw [hw, Option.getD_some]
    exact hne
  · by_contra hne
    have := (lt_pgroundup_iff hsz).mp ((h _ hlt).mp ⟨w, hw, hne⟩)
    omega

/-- **The pages loaded cover a process if they are at most 64.** Page 0 has lost its entry
otherwise. -/
theorem covers_loadPages_iff {pgdir sz : Nat} (hsz : sz ≤ USERTOP)
    (h : Entries mem pgdir ((sz + 4095) / 4096) pte) :
    Covers mem pgdir sz (loadPages pte u ((sz + 4095) / 4096)) ↔ sz ≤ 64 * PGSIZE := by
  constructor
  · intro hcov
    by_contra hlt
    have hpage : 64 < (sz + 4095) / 4096 := by
      unfold PGSIZE at hlt
      omega
    have hfirst : 0 * 4096 < pgroundup sz := (lt_pgroundup_iff hsz).mpr (by omega)
    obtain ⟨w, i, -, hi⟩ := hcov.all 0 hfirst
    obtain ⟨v, -, -, hv, he⟩ := of_utlb_loadPages hi
    unfold pageEntry at he
    injection he with hzero
    omega
  · intro hle
    have hpages : (sz + 4095) / 4096 ≤ 64 := by
      unfold PGSIZE at hle
      omega
    refine ⟨fun v hv => ?_, fun i e he => ?_⟩
    · have hv' := (lt_pgroundup_iff hsz).mp hv
      exact ⟨pte v, _, h.some v hv', utlb_loadPages hv' (by omega)⟩
    · obtain ⟨v, hv, -, -, rfl⟩ := of_utlb_loadPages he
      exact ⟨v, (lt_pgroundup_iff hsz).mpr hv, rfl⟩

/-- **When the UTLB covers the running process.** `switchuvm` of a process whose page table maps
exactly the pages below `PGROUNDUP(sz)` returns, and after it the UTLB covers the process if and
only if its size is at most 64 pages: the 65th page takes the entry of the first. -/
theorem switchuvm_covers_iff (s : Phys) (u : Mmu) {pgdir sz : Nat} (hpgdir : pgdir ≠ 0)
    (hsz : sz ≤ USERTOP) (hmap : MapsBelow s.mem pgdir sz) :
    ∃ u', (∀ fuel > 524288, switchuvmTlb fuel pgdir u s = .ok (u', s)) ∧
      (Covers s.mem pgdir sz u' ↔ sz ≤ 64 * PGSIZE) := by
  have hent := hmap.entries hsz
  refine ⟨loadPages _ u ((sz + 4095) / 4096), fun fuel hfuel => ?_, covers_loadPages_iff hsz hent⟩
  refine switchuvmTlb_eq hent hpgdir ?_
  unfold USERTOP at hsz
  omega

/-! ## The page tables of the kernel -/

/-- The entry for a page whose table is on page `t`. -/
theorem pteOfVa_of_pteOf {d v t : Nat} (hv : v < 1048576) (h : entry mem d (v / 1024) = pteOf t) :
    pteOfVa mem (d * 4096) (v * 4096) = some (entry mem t (v % 1024)) := by
  unfold entry at h
  rw [pteOfVa, pdx_page hv, ptx_page, h, if_pos (by rw [pteOf_and]; decide), pteAddr_pteOf]
  rfl

/-- A page that has no table has no entry. -/
theorem pteOfVa_of_zero {d v : Nat} (hv : v < 1048576) (h : entry mem d (v / 1024) = 0) :
    pteOfVa mem (d * 4096) (v * 4096) = none := by
  unfold entry at h
  rw [pteOfVa, pdx_page hv, h, if_neg (by decide)]

/-- The memory with the given words. -/
def wordMem (w : Nat → Nat) : Nat → UInt8 := fun x => UInt8.ofNat (w (x / 4) / 256 ^ (x % 4))

theorem le32_wordMem (w : Nat → Nat) (k : Nat) (hw : w k < 4294967296) :
    le32 (wordMem w) (4 * k) = w k := by
  have h0 : 4 * k / 4 = k ∧ 4 * k % 4 = 0 := by omega
  have h1 : (4 * k + 1) / 4 = k ∧ (4 * k + 1) % 4 = 1 := by omega
  have h2 : (4 * k + 2) / 4 = k ∧ (4 * k + 2) % 4 = 2 := by omega
  have h3 : (4 * k + 2 + 1) / 4 = k ∧ (4 * k + 2 + 1) % 4 = 3 := by omega
  simp only [le32, le16, wordMem, h0, h1, h2, h3, UInt8.toNat_ofNat']
  omega

/-- The words of a page directory on page 300 and of its table on page 301, which maps the first
`n` pages. -/
def sampleWord (n k : Nat) : Nat :=
  if k = 300 * 1024 then pteOf 301
  else if 301 * 1024 ≤ k ∧ k < 301 * 1024 + n then pteOf (400 + (k - 301 * 1024))
  else 0

theorem sampleWord_lt {n : Nat} (hn : n ≤ 1024) (k : Nat) : sampleWord n k < 4294967296 := by
  unfold sampleWord pteOf
  split
  · decide
  · split <;> omega

theorem entry_sample {n : Nat} (hn : n ≤ 1024) (p i : Nat) :
    entry (wordMem (sampleWord n)) p i = sampleWord n (p * 1024 + i) := by
  have ha : p * 4096 + 4 * i = 4 * (p * 1024 + i) := by omega
  rw [entry, ha, le32_wordMem _ _ (sampleWord_lt hn _)]

theorem mapsBelow_sample {n : Nat} (hn : n ≤ 1024) :
    MapsBelow (wordMem (sampleWord n)) (300 * 4096) (n * 4096) := by
  intro v hv
  have hsz : n * 4096 ≤ USERTOP := by
    unfold USERTOP
    omega
  rw [lt_pgroundup_iff hsz]
  by_cases hlow : v < 1024
  · -- the table on page 301 is the one of the first 1024 pages
    have hpde : entry (wordMem (sampleWord n)) 300 (v / 1024) = pteOf 301 := by
      rw [entry_sample hn, sampleWord, if_pos (by omega)]
    rw [pteOfVa_of_pteOf hv hpde, entry_sample hn, sampleWord, if_neg (by omega)]
    unfold pteOf
    split
    · simp
      omega
    · simp
      omega
  · have hpde : entry (wordMem (sampleWord n)) 300 (v / 1024) = 0 := by
      rw [entry_sample hn, sampleWord, if_neg (by omega), if_neg (by omega)]
    rw [pteOfVa_of_zero hv hpde]
    simp
    omega

/-- The process of `n` pages, before `switchuvm`. -/
def samplePhys (n : Nat) : Phys := ⟨wordMem (sampleWord n), 0⟩

/-- The memory management unit at reset. -/
def resetMmu : Mmu := ⟨0, 0, 0, fun _ => none⟩

/-- A process of 64 pages is covered. -/
theorem switchuvm_covers_64 :
    ∃ u', (∀ fuel > 524288,
        switchuvmTlb fuel (300 * 4096) resetMmu (samplePhys 64) = .ok (u', samplePhys 64)) ∧
      (Covers (samplePhys 64).mem (300 * 4096) (64 * 4096) u' ↔ 64 * 4096 ≤ 64 * PGSIZE) :=
  switchuvm_covers_iff (samplePhys 64) resetMmu (by decide) (by decide)
    (mapsBelow_sample (n := 64) (by decide))

/-- **A process of 65 pages is not covered**: its page table maps exactly the pages below its size,
and after `switchuvm` there is no entry for page 0. -/
theorem switchuvm_loses_page :
    MapsBelow (samplePhys 65).mem (300 * 4096) (65 * 4096) ∧ 65 * 4096 ≤ USERTOP ∧
      ∃ u', (∀ fuel > 65,
          switchuvmTlb fuel (300 * 4096) resetMmu (samplePhys 65) = .ok (u', samplePhys 65)) ∧
        (∀ i e, u'.utlb i = some e → e.pteh ≠ 0) ∧
        ¬ Covers (samplePhys 65).mem (300 * 4096) (65 * 4096) u' := by
  have hmap : MapsBelow (samplePhys 65).mem (300 * 4096) (65 * 4096) :=
    mapsBelow_sample (n := 65) (by decide)
  have hsz : 65 * 4096 ≤ USERTOP := by decide
  obtain ⟨pte, hent⟩ : ∃ pte, Entries (samplePhys 65).mem (300 * 4096) 65 pte :=
    ⟨_, hmap.entries hsz⟩
  refine ⟨hmap, hsz, loadPages pte resetMmu 65, fun fuel hfuel => ?_, fun i e he => ?_,
    fun hcov => ?_⟩
  · exact switchuvmTlb_eq hent (by decide) hfuel
  · obtain ⟨v, -, -, hv, rfl⟩ := of_utlb_loadPages he
    show v * 4096 ≠ 0
    omega
  · exact absurd ((covers_loadPages_iff hsz hent).mp hcov) (by decide)

end Xv6.Vm

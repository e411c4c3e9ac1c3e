import Xv6.Vm.Lookup

/-! # Mapping one page

`mappages` of a single page in any page directory whose tables are distinct pages, whatever else the
memory holds and whether or not `kalloc` has a page for a new table. `translation` is what
`walkpgdir` finds. The one entry is added, or nothing is, and no other page is translated in another
way (`mappages_frame`). -/

namespace Xv6.Vm

open Lib Run

/-! ## Translations -/

/-- An entry, if it is valid. -/
def valid (e : Nat) : Option Nat := if e &&& PTEL_V ≠ 0 then some e else none

/-- **The translation of an address**: the valid entry that `walkpgdir` finds. -/
def translation (s : Phys) (pgdir va : Nat) : Option Nat :=
  match walkpgdir pgdir va false s with
  | .ok (some pte, _) => valid (le32 s.mem pte)
  | _ => none

/-- **The page tables of a directory are distinct pages**, and none is the directory. -/
def Distinct (m : Nat → UInt8) (d : Nat) : Prop :=
  ∀ i < 1024, ∀ t, target (entry m d i) = some t →
    t ≠ d ∧ ∀ j < 1024, target (entry m d j) = some t → j = i

/-- **The page that `kalloc` returns is fresh**: if there is one it is not the directory and none of
its tables. -/
def FreshFor (s : Phys) (d : Nat) : Prop :=
  s.freelist = 0 ∨ ∃ r < 1048576, s.freelist = r * 4096 ∧ r ≠ d ∧
    ∀ i < 1024, target (entry s.mem d i) ≠ some r

/-- The valid entry `j` of the table at entry `i` of a directory. -/
def mapped (m : Nat → UInt8) (d i j : Nat) : Option Nat :=
  (target (entry m d i)).bind fun t => valid (entry m t j)

theorem target_eq_some_iff {e t : Nat} :
    target e = some t ↔ e &&& PTEL_V ≠ 0 ∧ pteAddr e = t * 4096 := by
  unfold target
  split
  · rename_i hv
    rw [Option.some_inj]
    unfold pteAddr PGSIZE
    constructor
    · rintro rfl
      exact ⟨hv, by omega⟩
    · rintro ⟨-, h⟩
      omega
  · rename_i hv
    exact ⟨nofun, fun h => absurd h.1 hv⟩

theorem target_eq_none_iff {e : Nat} : target e = none ↔ ¬ e &&& PTEL_V ≠ 0 := by
  unfold target
  split
  · rename_i hv
    exact ⟨nofun, fun h => absurd hv h⟩
  · rename_i hv
    exact ⟨fun _ => hv, fun _ => rfl⟩

/-- `walkpgdir` without creation. -/
theorem walkpgdir_false (s : Phys) (d va : Nat) :
    walkpgdir (d * 4096) va false s =
      .ok ((target (entry s.mem d (pdx va))).map fun t => t * 4096 + 4 * ptx va, s) := by
  have hwalk : walkpgdir (d * 4096) va false s =
      (if entry s.mem d (pdx va) &&& PTEL_V ≠ 0 then
        pure (some (pteAddr (entry s.mem d (pdx va)) + 4 * ptx va))
      else pure none : VmM (Option Nat)) s := rfl
  rw [hwalk]
  cases ht : target (entry s.mem d (pdx va)) with
  | none =>
      rw [if_neg (target_eq_none_iff.mp ht)]
      rfl
  | some t =>
      obtain ⟨hv, haddr⟩ := target_eq_some_iff.mp ht
      rw [if_pos hv, haddr]
      rfl

theorem translation_eq (s : Phys) (d va : Nat) :
    translation s (d * 4096) va = mapped s.mem d (pdx va) (ptx va) := by
  rw [translation, mapped, walkpgdir_false]
  cases target (entry s.mem d (pdx va)) with
  | none => rfl
  | some t => rfl

/-! ## Stores into the tables -/

section Store

variable {m : Nat → UInt8} {d i j t w : Nat}

/-- Two pages of the address space with one number are in one entry of one table. -/
theorem entry_put_table (hdist : Distinct m d) (hi : i < 1024) (hj : j < 1024)
    (ht : target (entry m d i) = some t) (hw : w < 4294967296) {k : Nat} (hk : k < 1024) :
    entry (put m (t * 4096 + 4 * j) (bytes32 w)) d k = entry m d k := by
  rw [entry_putWord _ _ _ _ _ _ hj hk hw, if_neg]
  exact fun h => (hdist i hi t ht).1 h.1.symm

/-- **Writing an entry of a table** changes the translation of its page only. -/
theorem mapped_put_table (hdist : Distinct m d) (hi : i < 1024) (hj : j < 1024)
    (ht : target (entry m d i) = some t) (hw : w < 4294967296) {i' j' : Nat} (hi' : i' < 1024)
    (hj' : j' < 1024) :
    mapped (put m (t * 4096 + 4 * j) (bytes32 w)) d i' j' =
      if i' = i ∧ j' = j then valid w else mapped m d i' j' := by
  unfold mapped
  rw [entry_put_table hdist hi hj ht hw hi']
  by_cases hii : i' = i
  · subst hii
    rw [ht, Option.bind_some, Option.bind_some, entry_putWord _ _ _ _ _ _ hj hj' hw]
    by_cases hjj : j' = j
    · rw [if_pos ⟨rfl, hjj⟩, if_pos ⟨rfl, hjj⟩]
    · rw [if_neg (fun h => hjj h.2), if_neg (fun h => hjj h.2)]
  · rw [if_neg (fun h => hii h.1)]
    cases ht' : target (entry m d i') with
    | none => rfl
    | some t' =>
        have hne : t' ≠ t := by
          rintro rfl
          exact hii ((hdist i hi t' ht).2 i' hi' ht')
        rw [Option.bind_some, Option.bind_some, entry_putWord _ _ _ _ _ _ hj hj' hw,
          if_neg (fun h => hne h.1)]

theorem Distinct.put_table (hdist : Distinct m d) (hi : i < 1024) (hj : j < 1024)
    (ht : target (entry m d i) = some t) (hw : w < 4294967296) :
    Distinct (put m (t * 4096 + 4 * j) (bytes32 w)) d := by
  intro k hk t' ht'
  rw [entry_put_table hdist hi hj ht hw hk] at ht'
  refine ⟨(hdist k hk t' ht').1, fun k' hk' ht'' => ?_⟩
  rw [entry_put_table hdist hi hj ht hw hk'] at ht''
  exact (hdist k hk t' ht').2 k' hk' ht''

end Store

/-! ## A new table -/

/-- The memory after `walkpgdir` has made the page `r` the table at entry `i` of the directory. -/
def newTable (m : Nat → UInt8) (d i r : Nat) : Nat → UInt8 :=
  put (fill m (r * 4096) 0 PGSIZE) (d * 4096 + 4 * i) (bytes32 (r * 4096 ||| PTEL_DEFAULT))

section New

variable {m : Nat → UInt8} {d i r : Nat} (hi : i < 1024) (hr : r < 1048576) (hne : r ≠ d)
include hi hr hne

/-- The new table is empty and only its entry of the directory changes. -/
theorem entry_newTable {p k : Nat} (hk : k < 1024) :
    entry (newTable m d i r) p k =
      if p = d ∧ k = i then pteOf r else if p = r then 0 else entry m p k := by
  have hlt : pteOf r < 4294967296 := by
    unfold pteOf
    omega
  rw [newTable, pteOf_eq_or, entry_putWord _ _ _ _ _ _ hi hk hlt]
  by_cases hp : p = r
  · subst hp
    rw [entry_fill _ _ _ hk, if_pos rfl]
  · rw [agreeOff_fill.entry hp hk, if_neg hp]

theorem entry_newTable_dir {k : Nat} (hk : k < 1024) :
    entry (newTable m d i r) d k = if k = i then pteOf r else entry m d k := by
  rw [entry_newTable hi hr hne hk, if_neg (c := d = r) hne.symm]
  by_cases hki : k = i
  · rw [if_pos ⟨rfl, hki⟩, if_pos hki]
  · rw [if_neg (fun h => hki h.2), if_neg hki]

theorem target_newTable : target (entry (newTable m d i r) d i) = some r := by
  rw [entry_newTable_dir hi hr hne hi, if_pos rfl, target_pteOf]

variable (hfresh : ∀ k < 1024, target (entry m d k) ≠ some r)
include hfresh

theorem Distinct.newTable (hdist : Distinct m d) : Distinct (newTable m d i r) d := by
  intro k hk t ht
  by_cases hki : k = i
  · subst hki
    rw [target_newTable hi hr hne, Option.some_inj] at ht
    subst ht
    refine ⟨hne, fun j hj htj => ?_⟩
    by_contra hjk
    rw [entry_newTable_dir hi hr hne hj, if_neg hjk] at htj
    exact hfresh j hj htj
  · rw [entry_newTable_dir hi hr hne hk, if_neg hki] at ht
    refine ⟨(hdist k hk t ht).1, fun j hj htj => ?_⟩
    by_cases hji : j = i
    · subst hji
      rw [target_newTable hi hr hne, Option.some_inj] at htj
      subst htj
      exact absurd ht (hfresh k hk)
    · rw [entry_newTable_dir hi hr hne hj, if_neg hji] at htj
      exact (hdist k hk t ht).2 j hj htj

/-- **A new table translates nothing.** -/
theorem mapped_newTable (hdist : Distinct m d) (hno : target (entry m d i) = none) {i' j' : Nat}
    (hi' : i' < 1024) (hj' : j' < 1024) :
    mapped (newTable m d i r) d i' j' = mapped m d i' j' := by
  unfold mapped
  by_cases hii : i' = i
  · subst hii
    rw [target_newTable hi hr hne, hno, Option.bind_some, entry_newTable hi hr hne hj',
      if_neg (fun h => hne h.1), if_pos rfl]
    rfl
  · rw [entry_newTable_dir hi hr hne hi', if_neg hii]
    cases ht : target (entry m d i') with
    | none => rfl
    | some t =>
        have htr : t ≠ r := by
          rintro rfl
          exact hfresh i' hi' ht
        rw [Option.bind_some, Option.bind_some, entry_newTable hi hr hne hj',
          if_neg (fun h => (hdist i' hi' t ht).1 h.1), if_neg htr]

end New

/-! ## `mappages` -/

/-- **What mapping one page does**: the page is mapped to `pa` with the permissions and all others
are translated as before; or, if there is no memory for its table, no translation changes. -/
def MapsOne (s : Phys) (d va pa perm : Nat) : Bool → Phys → Prop
  | true, t =>
      translation t (d * 4096) va = some (pa ||| perm ||| PTEL_V) ∧
        (perm < 4096 → pteAddr (pa ||| perm ||| PTEL_V) = pa ∧
          (pa ||| perm ||| PTEL_V) % 4096 = perm ||| PTEL_V) ∧
        ∀ va' < 4294967296, va' / 4096 ≠ va / 4096 →
          translation t (d * 4096) va' = translation s (d * 4096) va'
  | false, t =>
      s.freelist = 0 ∧
        ∀ va' < 4294967296, translation t (d * 4096) va' = translation s (d * 4096) va'

section Map

variable {s : Phys} {d va : Nat} {E : Stop → Prop}

/-- **`walkpgdir` with creation.** -/
theorem post_walkpgdir_create {Q : Option Nat → Phys → Prop}
    (htab : ∀ t, target (entry s.mem d (pdx va)) = some t → Q (some (t * 4096 + 4 * ptx va)) s)
    (hnone : s.freelist = 0 → Q none s)
    (hnew : target (entry s.mem d (pdx va)) = none → ∀ r, s.freelist = r * 4096 → s.freelist ≠ 0 →
      Q (some (r * 4096 + 4 * ptx va)) ⟨newTable s.mem d (pdx va) r, le32 s.mem (r * 4096)⟩)
    (hpage : s.freelist % 4096 = 0) :
    Post (walkpgdir (d * 4096) va true) E Q s := by
  have hentry : le32 s.mem (d * 4096 + 4 * pdx va) = entry s.mem d (pdx va) := rfl
  rw [walkpgdir, post_bind, post_load, hentry]
  cases ht : target (entry s.mem d (pdx va)) with
  | some t =>
      obtain ⟨hv, haddr⟩ := target_eq_some_iff.mp ht
      rw [if_pos hv, haddr, post_pure]
      exact htab t ht
  | none =>
      rw [if_neg (target_eq_none_iff.mp ht), if_neg (by decide), post_bind]
      by_cases hzero : s.freelist = 0
      · simp only [kalloc, post_bind, post_get, hzero, if_true, post_pure]
        exact hnone hzero
      · obtain ⟨r, hr⟩ : ∃ r, s.freelist = r * 4096 := ⟨s.freelist / 4096, by omega⟩
        simp only [kalloc, post_bind, post_get, if_neg hzero, post_modify, post_pure, post_memset,
          post_storeWord]
        rw [hr]
        exact hnew ht r hr hzero

/-- The rest of a round of `mappages` for the last page. -/
theorem post_mapLast {t j pa perm fuel : Nat} {Q : Bool → Phys → Prop}
    (hfree : valid (entry s.mem t j) = none)
    (hQ : Q true { s with mem := put s.mem (t * 4096 + 4 * j) (bytes32 (pa ||| perm ||| PTEL_V)) }) :
    Post (do
      let v ← load (t * 4096 + 4 * j)
      if v &&& PTEL_V ≠ 0 then panic "remap"
      else do
        storeWord (t * 4096 + 4 * j) (pa ||| perm ||| PTEL_V)
        if va = va then pure true
        else
          mappagesLoop (d * 4096) va perm fuel ((va + PGSIZE) % 4294967296)
            ((pa + PGSIZE) % 4294967296)) E Q s := by
  have hentry : le32 s.mem (t * 4096 + 4 * j) = entry s.mem t j := rfl
  have hclear : ¬ entry s.mem t j &&& PTEL_V ≠ 0 := by
    intro hv
    rw [valid, if_pos hv] at hfree
    exact nomatch hfree
  rw [post_bind, post_load, hentry, if_neg hclear, post_bind, post_storeWord, if_pos rfl, post_pure]
  exact hQ

end Map

/-- What a page-aligned address and permission bits leave in an entry. -/
theorem entry_bits {pa perm : Nat} (hpa : pa % 4096 = 0) (hperm : perm < 4096) :
    pteAddr (pa ||| perm ||| PTEL_V) = pa ∧ (pa ||| perm ||| PTEL_V) % 4096 = perm ||| PTEL_V := by
  obtain ⟨q, rfl⟩ : ∃ q, pa = q <<< 12 := ⟨pa / 4096, by rw [Nat.shiftLeft_eq]; omega⟩
  have hbits : perm ||| PTEL_V < 2 ^ 12 := Nat.or_lt_two_pow hperm (by decide)
  rw [Nat.or_assoc, ← Nat.shiftLeft_add_eq_or_of_lt hbits, Nat.shiftLeft_eq]
  unfold pteAddr PGSIZE
  omega

/-- The two indices of an address tell its page. -/
theorem page_eq_of_indices {va va' : Nat} (hva : va < 4294967296) (hva' : va' < 4294967296)
    (hpdx : pdx va' = pdx va) (hptx : ptx va' = ptx va) : va' / 4096 = va / 4096 := by
  unfold pdx ptx at *
  omega

theorem pdx_lt (va : Nat) : pdx va < 1024 := Nat.mod_lt _ (by decide)

theorem ptx_lt (va : Nat) : ptx va < 1024 := Nat.mod_lt _ (by decide)

/-- The entry that `mappages` stores is valid. -/
theorem valid_entry (pa perm : Nat) :
    valid (pa ||| perm ||| PTEL_V) = some (pa ||| perm ||| PTEL_V) := by
  have hbit : (pa ||| perm ||| PTEL_V) &&& PTEL_V = PTEL_V := by
    apply Nat.eq_of_testBit_eq
    intro i
    rw [Nat.testBit_and, Nat.testBit_or]
    cases PTEL_V.testBit i <;> simp
  rw [valid, if_pos (by rw [hbit]; decide)]

section Last

variable {s u : Phys} {d va pa perm t : Nat} (hva : va < 4294967296) (hpa : pa < 4294967296)
  (hpapage : pa % 4096 = 0) (hperm : perm < 4294967296) (hdist : Distinct u.mem d)
  (hsame : ∀ i < 1024, ∀ j < 1024, mapped u.mem d i j = mapped s.mem d i j)
  (ht : target (entry u.mem d (pdx va)) = some t)
include hva hpa hpapage hperm hdist hsame ht

/-- **The entry is stored** in a table that is there, in a memory that translates as before. -/
theorem mapsOne_put {w : Phys}
    (hw : w.mem = put u.mem (t * 4096 + 4 * ptx va) (bytes32 (pa ||| perm ||| PTEL_V))) :
    Distinct w.mem d ∧ MapsOne s d va pa perm true w := by
  have hword : pa ||| perm ||| PTEL_V < 4294967296 :=
    Nat.or_lt_two_pow (Nat.or_lt_two_pow hpa hperm : _ < 2 ^ 32) (by decide)
  have hmapped {i j : Nat} (hi : i < 1024) (hj : j < 1024) :=
    mapped_put_table hdist (pdx_lt va) (ptx_lt va) ht hword hi hj
  refine ⟨?_, ?_, entry_bits hpapage, fun va' hva' hne => ?_⟩
  · rw [hw]
    exact hdist.put_table (pdx_lt va) (ptx_lt va) ht hword
  · rw [translation_eq, hw, hmapped (pdx_lt va) (ptx_lt va), if_pos ⟨rfl, rfl⟩, valid_entry]
  · rw [translation_eq, translation_eq, hw, hmapped (pdx_lt va') (ptx_lt va'), if_neg,
      hsame _ (pdx_lt va') _ (ptx_lt va')]
    exact fun h => hne (page_eq_of_indices hva hva' h.1 h.2)

/-- The rest of the round once the table is there. -/
theorem post_mapLast_frame (hunmapped : translation s (d * 4096) va = none) {fuel : Nat}
    {E : Stop → Prop} :
    Post (do
      let v ← load (t * 4096 + 4 * ptx va)
      if v &&& PTEL_V ≠ 0 then panic "remap"
      else do
        storeWord (t * 4096 + 4 * ptx va) (pa ||| perm ||| PTEL_V)
        if va = va then pure true
        else
          mappagesLoop (d * 4096) va perm fuel ((va + PGSIZE) % 4294967296)
            ((pa + PGSIZE) % 4294967296)) E
      (fun r w => Distinct w.mem d ∧ MapsOne s d va pa perm r w) u := by
  have hfree := hsame _ (pdx_lt va) _ (ptx_lt va)
  rw [translation_eq] at hunmapped
  rw [hunmapped, mapped, ht, Option.bind_some] at hfree
  exact post_mapLast hfree (mapsOne_put hva hpa hpapage hperm hdist hsame ht rfl)

end Last

/-- **Mapping one page disturbs no other**, and the page tables stay distinct. -/
theorem mappages_frame (s : Phys) (d va pa perm fuel : Nat) (hdist : Distinct s.mem d)
    (hfresh : FreshFor s d) (hva : va < 4294967296) (hvapage : va % 4096 = 0)
    (hpa : pa < 4294967296) (hpapage : pa % 4096 = 0) (hperm : perm < 4294967296)
    (hfuel : 0 < fuel) (hunmapped : translation s (d * 4096) va = none) :
    ∃ r t, mappages fuel (d * 4096) va PGSIZE pa perm s = .ok (r, t) ∧
      Distinct t.mem d ∧ MapsOne s d va pa perm r t := by
  obtain ⟨fuel, rfl⟩ : ∃ n, fuel = n + 1 := ⟨fuel - 1, by omega⟩
  have hlast : pgrounddown ((va + PGSIZE + 4294967296 - 1) % 4294967296) = va := by
    unfold pgrounddown PGSIZE
    omega
  have hla : pgrounddown va = va := by
    unfold pgrounddown PGSIZE
    omega
  have hfree : s.freelist % 4096 = 0 := by
    rcases hfresh with h | ⟨r, -, h, -⟩ <;> omega
  apply Post.exists_ok
  rw [mappages, hlast, hla, mappagesLoop, post_bind]
  refine post_walkpgdir_create (fun t ht => ?_) (fun hzero => ?_) (fun hno r hr hne => ?_) hfree
  · -- the table is there
    exact post_mapLast_frame hva hpa hpapage hperm hdist (fun _ _ _ _ => rfl) ht hunmapped
  · exact post_pure.mpr ⟨hdist, hzero, fun _ _ => rfl⟩
  · -- `kalloc` gave a page for the table
    obtain ⟨r', hr', heq, hdir, htabs⟩ := hfresh.resolve_left hne
    obtain rfl : r' = r := by omega
    have hdist' := hdist.newTable (pdx_lt va) hr' hdir htabs
    exact post_mapLast_frame (u := ⟨newTable s.mem d (pdx va) r', le32 s.mem (r' * 4096)⟩) hva hpa
      hpapage hperm hdist'
      (fun i hi j hj => mapped_newTable (pdx_lt va) hr' hdir htabs hdist hno hi hj)
      (target_newTable (pdx_lt va) hr' hdir) hunmapped

/-- The first page of an empty directory, with a page for its table. -/
theorem mappages_frame_empty :
    let s : Phys := ⟨fun _ => 0, 512 * 4096⟩
    ∃ r t, mappages 1 (256 * 4096) 4096 PGSIZE 0x300000 PTEL_DEFAULT s = .ok (r, t) ∧
      Distinct t.mem 256 ∧ MapsOne s 256 4096 0x300000 PTEL_DEFAULT r t := by
  have hentry (p i : Nat) : target (entry (fun _ => 0) p i) = none := by
    have hzero : entry (fun _ => 0) p i = 0 := rfl
    rw [hzero, target_zero]
  refine mappages_frame ⟨fun _ => 0, 512 * 4096⟩ 256 4096 0x300000 PTEL_DEFAULT 1 ?_ ?_ (by decide)
    (by decide) (by decide) (by decide) (by decide) (by decide) ?_
  · intro i _ t ht
    exact nomatch (hentry 256 i).symm.trans ht
  · exact Or.inr ⟨512, by decide, rfl, by decide, fun i _ => by rw [hentry]; exact nofun⟩
  · rw [translation_eq, mapped, hentry]
    rfl

end Xv6.Vm

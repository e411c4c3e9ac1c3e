import Xv6.Vm.Lookup
import Xv6.Vm.Touch

/-! # `allocuvm` and `deallocuvm` as inverses

`allocuvm` adds pages that are filled with zeros, or none at all, and `deallocuvm` takes them away
again; the page tables that were allocated on the way stay. Both hold exactly when the new size is
not zero and memory does not run out just when a page table is needed. -/

namespace Xv6.Vm

open Lib Run

open Function (update update_of_ne update_self)

/-! ## The purpose of the two functions -/

/-- The page is on the free list. -/
def IsFree (s : Phys) (p : Nat) : Prop := ∃ fl, FreeChain s.mem s.freelist fl ∧ p ∈ fl

/-- **The address space has grown** from `n` to `m` pages, unless it was larger already. -/
structure Grown (s : Phys) (d n m : Nat) (u : Phys) : Prop where
  maps : MapsExactly u.mem d (max n m)
  /-- The old pages are where they were, with what they held. -/
  old : ∀ v < n, lookup u.mem d v = lookup s.mem d v
  contents : ∀ v < n, ∀ q, lookup s.mem d v = some q → ∀ k < 4096,
    u.mem (q * 4096 + k) = s.mem (q * 4096 + k)
  /-- The new pages were free, are free no longer, and are filled with zeros. -/
  fresh : ∀ v q, n ≤ v → v < m → lookup u.mem d v = some q → IsFree s q ∧ ¬ IsFree u q
  zero : ∀ v q, n ≤ v → v < m → lookup u.mem d v = some q → ∀ k < 4096, u.mem (q * 4096 + k) = 0
  /-- No page is mapped twice. -/
  distinct : ∀ v < 1048576, ∀ v' < 1048576, ∀ q, lookup u.mem d v = some q →
    lookup u.mem d v' = some q → v = v'

/-- **The address space is as before**: the same pages are mapped, and the same pages are free except
those that are now page tables. -/
structure Restored (s : Phys) (d : Nat) (u : Phys) : Prop where
  maps : ∀ v < 1048576, lookup u.mem d v = lookup s.mem d v
  free : ∀ p, IsFree s p → IsFree u p ∨ ∃ v < 1048576, tableOf u.mem d v = some p
  was : ∀ p, IsFree u p → IsFree s p

/-- **`allocuvm` and `deallocuvm` are inverses** between two sizes: both return; if `allocuvm`
succeeds, the address space has grown and `deallocuvm` restores it; otherwise it is as before. -/
def Inverses (s : Phys) (d oldsz newsz : Nat) : Prop :=
  ∃ rounds, ∀ fuel ≥ rounds,
    Post (allocuvm fuel (d * 4096) oldsz newsz) (fun _ => False) (fun r u =>
      if r = 0 then Restored s d u
      else Grown s d (pagesOf oldsz) (pagesOf newsz) u ∧
        Post (deallocuvm fuel (d * 4096) newsz oldsz) (fun _ => False)
          (fun _ w => Restored s d w) u) s

/-! ## Page tables that are missing -/

/-- A new page table is needed for the page `v`. -/
def NeedsTable (m : Nat → UInt8) (d v : Nat) : Prop := v % 1024 = 0 ∧ tableOf m d v = none

instance (m : Nat → UInt8) (d v : Nat) : Decidable (NeedsTable m d v) :=
  inferInstanceAs (Decidable (_ ∧ _))

/-- The number of pages that are allocated for the pages from `n` up to `v` and their tables. -/
def spent (m : Nat → UInt8) (d n : Nat) : Nat → Nat
  | 0 => 0
  | v + 1 => spent m d n v + if n ≤ v then (if NeedsTable m d v then 2 else 1) else 0

/-- **Memory runs out at a page table**: with `f` free pages there is one left for a page that needs a
table, and none for the table. -/
def TableStarved (m : Nat → UInt8) (d n n' f : Nat) : Prop :=
  ∃ v, n ≤ v ∧ v < n' ∧ NeedsTable m d v ∧ f = spent m d n v + 1

section Spent

variable {m : Nat → UInt8} {d n v : Nat}

theorem spent_self : spent m d n n = 0 := by
  have hbelow : ∀ v ≤ n, spent m d n v = 0 := by
    intro v hv
    induction v with
    | zero => rfl
    | succ v ih => rw [spent, ih (by omega), if_neg (by omega)]
  exact hbelow n le_rfl

theorem spent_succ (hv : n ≤ v) :
    spent m d n (v + 1) = spent m d n v + if NeedsTable m d v then 2 else 1 := by
  rw [spent, if_pos hv]

theorem spent_mono : Monotone (spent m d n) :=
  monotone_nat_of_le_succ fun v => by rw [spent]; omega

theorem spent_lt {v' : Nat} (hv : n ≤ v) (hlt : v < v') (hneeds : NeedsTable m d v) :
    spent m d n v + 1 < spent m d n v' := by
  have hmono := spent_mono (m := m) (d := d) (n := n) (show v + 1 ≤ v' from hlt)
  rw [spent_succ hv, if_pos hneeds] at hmono
  omega

end Spent

variable {s s₀ u : Phys} {own own₀ : Nat → Owner} {fl fl₀ fl' : List Nat} {E : Stop → Prop}
  {d n m v : Nat}

theorem Owned.isFree_iff (h : Owned s own fl) (p : Nat) : IsFree s p ↔ own p = .free := by
  rw [← h.free p]
  constructor
  · rintro ⟨fl', hchain, hp⟩
    rwa [hchain.unique h.chain] at hp
  · exact fun hp => ⟨fl, h.chain, hp⟩

theorem Owned.tableOf_eq_none_iff (h : Owned s own fl) (hd : own d = .dir) (hv : v < 1048576) :
    tableOf s.mem d v = none ↔ ¬ Tabbed own d v := by
  rw [Option.eq_none_iff_forall_ne_some]
  constructor
  · rintro hno ⟨t, ht⟩
    exact hno t ((h.tableOf_eq_some_iff hd hv).mpr ht)
  · exact fun hno t ht => hno ⟨t, (h.tableOf_eq_some_iff hd hv).mp ht⟩

/-! ## The loop of `allocuvm` -/

/-- **The state of the loop of `allocuvm`** at page `v`, having started at page `n` in the state
`s₀`. -/
structure Filled (s₀ : Phys) (own₀ : Nat → Owner) (fl₀ : List Nat) (d n : Nat) (s : Phys)
    (own : Nat → Owner) (fl : List Nat) (v : Nat) : Prop where
  owned : Owned s own fl
  off : ∀ p, p ∉ fl₀ → own p = own₀ p
  on : ∀ p ∈ fl₀, own p = .free ∨ (∃ i, own p = .tab d i) ∨
    ∃ x, n ≤ x ∧ x < v ∧ own p = .page d x
  pages : ∀ x, n ≤ x → x < v → ∃ q, own q = .page d x
  tabbed : ∀ x, Tabbed own d x ↔ Tabbed own₀ d x ∨ ∃ y, n ≤ y ∧ y < v ∧ y / 1024 = x / 1024
  zero : ∀ q x, n ≤ x → own q = .page d x → ∀ k < 4096, s.mem (q * 4096 + k) = 0
  keeps : KeepsRest own₀ d s₀.mem s.mem
  count : fl₀.length = fl.length + spent s₀.mem d n v

section Fill

variable (h₀ : Owned s₀ own₀ fl₀) (hd : own₀ d = .dir)
  (hpages : ∀ v, (∃ q, own₀ q = .page d v) ↔ v < n)

include h₀ hpages in
theorem Filled.start : Filled s₀ own₀ fl₀ d n s₀ own₀ fl₀ n where
  owned := h₀
  off _ _ := rfl
  on p hp := Or.inl ((h₀.free p).mp hp)
  pages x hx hlt := by omega
  tabbed x := ⟨Or.inl, fun h => h.elim id fun ⟨y, hy, hlt, _⟩ => by omega⟩
  zero q x hx hq := absurd ((hpages x).mp ⟨q, hq⟩) (by omega)
  keeps _ _ := rfl
  count := by rw [spent_self, Nat.add_zero]

include h₀ hd in
theorem Filled.dir (h : Filled s₀ own₀ fl₀ d n s own fl v) : own d = .dir := by
  rw [h.off d fun hmem => ?_]
  · exact hd
  · cases hd.symm.trans ((h₀.free d).mp hmem)

include h₀ in
theorem Filled.scratch (h : Filled s₀ own₀ fl₀ d n s own fl v) {p : Nat} (hp : Scratch own d p) :
    Scratch own₀ d p := by
  by_cases hmem : p ∈ fl₀
  · exact Or.inr (Or.inl ((h₀.free p).mp hmem))
  · unfold Scratch at hp ⊢
    rwa [h.off p hmem] at hp

include h₀ in
theorem Filled.free_subset (h : Filled s₀ own₀ fl₀ d n s own fl v) {p : Nat} (hp : p ∈ fl) :
    p ∈ fl₀ := by
  by_contra hno
  have ho := h.off p hno
  rw [(h.owned.free p).mp hp] at ho
  exact hno ((h₀.free p).mpr ho.symm)

include h₀ hpages in
/-- A page without a table is the first one of its table, and the table was not there before. -/
theorem Filled.needsTable_iff (h : Filled s₀ own₀ fl₀ d n s own fl v) (hd : own₀ d = .dir)
    (hn : n ≤ v) (hv : v < 1048576) : ¬ Tabbed own d v ↔ NeedsTable s₀.mem d v := by
  have htab := h.tabbed v
  unfold NeedsTable
  rw [h₀.tableOf_eq_none_iff hd hv]
  constructor
  · intro hno
    have hno₀ : ¬ Tabbed own₀ d v := fun h₀ => hno (htab.mpr (Or.inl h₀))
    refine ⟨?_, hno₀⟩
    by_contra hmod
    -- the page before has a table, and it is the same one
    by_cases hlt : n < v
    · exact hno (htab.mpr (Or.inr ⟨v - 1, by omega, by omega, by omega⟩))
    · obtain ⟨q, hq⟩ := (hpages (v - 1)).mpr (by omega)
      obtain ⟨t, ht⟩ := h₀.pageTab q d _ hq
      exact hno₀ ⟨t, by rw [ht]; congr 1; omega⟩
  · rintro ⟨hmod, hno₀⟩ htabbed
    rcases htab.mp htabbed with htab₀ | ⟨y, hy, hlt, hdiv⟩
    · exact hno₀ htab₀
    · omega

include h₀ hd in
/-- **One more page**: the page `q`, and perhaps a page for its table, are taken from the free
list. -/
theorem Filled.next {own' : Nat → Owner} {q : Nat} (h : Filled s₀ own₀ fl₀ d n s own fl v)
    (hn : n ≤ v) (hu : Owned u own' fl') (hq : q ∈ fl) (hself : own' q = .page d v)
    (hnew : ∀ p, own' p = own p ∨ p ∈ fl ∧ (p = q ∨ own' p = .tab d (v / 1024)))
    (htab : Tabbed own' d v)
    (hlen : fl.length = fl'.length + if NeedsTable s₀.mem d v then 2 else 1)
    (hpage : NewPage own d q (fun _ => 0) s.mem u.mem) :
    Filled s₀ own₀ fl₀ d n u own' fl' (v + 1) := by
  have hfree : ∀ p ∈ fl, own p = .free := fun p hp => (h.owned.free p).mp hp
  have hpages' : ∀ p x, own' p = .page d x → p = q ∧ x = v ∨ own p = .page d x := by
    intro p x hp
    rcases hnew p with ho | ⟨-, rfl | ho⟩
    · exact Or.inr (ho ▸ hp)
    · rw [hself, Owner.page.injEq] at hp
      exact Or.inl ⟨rfl, hp.2.symm⟩
    · cases hp.symm.trans ho
  refine ⟨hu, fun p hp => ?_, fun p hp => ?_, fun x hx hlt => ?_, fun x => ?_,
    fun p x hx hp k hk => ?_, fun x hx => ?_, ?_⟩
  · rcases hnew p with ho | ⟨hmem, -⟩
    · rw [ho]
      exact h.off p hp
    · exact absurd (h.free_subset h₀ hmem) hp
  · rcases hnew p with ho | ⟨-, rfl | ho⟩
    · rw [ho]
      exact (h.on p hp).imp_right (Or.imp_right fun ⟨x, hx, hlt, hpx⟩ => ⟨x, hx, by omega, hpx⟩)
    · exact Or.inr (Or.inr ⟨v, hn, by omega, hself⟩)
    · exact Or.inr (Or.inl ⟨_, ho⟩)
  · by_cases hxv : x = v
    · exact ⟨q, hxv ▸ hself⟩
    · obtain ⟨p, hp⟩ := h.pages x hx (by omega)
      refine ⟨p, ?_⟩
      rcases hnew p with ho | ⟨hmem, -⟩
      · rw [ho, hp]
      · cases hp.symm.trans (hfree p hmem)
  · constructor
    · rintro ⟨t, ht⟩
      rcases hnew t with ho | ⟨-, rfl | ho⟩
      · rw [ho] at ht
        rcases (h.tabbed x).mp ⟨t, ht⟩ with htab₀ | ⟨y, hy, hlt, hdiv⟩
        · exact Or.inl htab₀
        · exact Or.inr ⟨y, hy, by omega, hdiv⟩
      · cases hself.symm.trans ht
      · rw [ho, Owner.tab.injEq] at ht
        exact Or.inr ⟨v, hn, by omega, ht.2⟩
    · intro hx
      by_cases hxv : v / 1024 = x / 1024
      · obtain ⟨t, ht⟩ := htab
        exact ⟨t, hxv ▸ ht⟩
      · obtain ⟨t, ht⟩ : Tabbed own d x := by
          refine (h.tabbed x).mpr (hx.imp_right fun ⟨y, hy, hlt, hdiv⟩ => ⟨y, hy, ?_, hdiv⟩)
          have hyv : y ≠ v := by
            rintro rfl
            exact hxv hdiv
          omega
        refine ⟨t, ?_⟩
        rcases hnew t with ho | ⟨hmem, -⟩
        · rw [ho, ht]
        · cases ht.symm.trans (hfree t hmem)
  · rcases hpages' p x hp with ⟨rfl, -⟩ | hpx
    · exact hpage.bytes k hk
    · rw [hpage.keeps]
      · exact h.zero p x hx hpx k hk
      · rw [show (p * 4096 + k) / 4096 = p by omega]
        rintro (rfl | ho | ⟨i, ho⟩)
        · cases hpx.symm.trans (h.dir h₀ hd)
        · cases hpx.symm.trans ho
        · cases hpx.symm.trans ho
  · rw [hpage.keeps x fun hs => hx (h.scratch h₀ hs)]
    exact h.keeps x hx
  · rw [h.count, spent_succ hn, hlen]
    omega

/-- **How `allocuvm` from `n` to `m` pages ends.** -/
inductive Outcome (s₀ : Phys) (own₀ : Nat → Owner) (fl₀ : List Nat) (d n m : Nat) :
    Bool → Phys → Prop
  /-- All pages are there. -/
  | done {u : Phys} {own : Nat → Owner} {fl : List Nat}
      (h : Filled s₀ own₀ fl₀ d n u own fl (max n m)) : Outcome s₀ own₀ fl₀ d n m true u
  /-- There is no memory for a page; the pages allocated so far are freed. -/
  | short {s u : Phys} {own : Nat → Owner} {fl : List Nat} {v : Nat}
      (h : Filled s₀ own₀ fl₀ d n s own [] v) (hv : v < m)
      (hu : Owned u (freed own d n m) fl) : Outcome s₀ own₀ fl₀ d n m false u
  /-- There is no memory for a page table; a page is lost, and if it was the last one, nobody
  notices. -/
  | starved {u : Phys} {own : Nat → Owner} {fl : List Nat} {p : Nat} {r : Bool}
      (hs : TableStarved s₀.mem d n m fl₀.length) (hu : Owned u own fl) (hd : own d = .dir)
      (hp : p ∈ fl₀) (hlost : own p = .held)
      (hlast : r = true → n < m ∧ ∀ q, own q ≠ .page d (m - 1)) : Outcome s₀ own₀ fl₀ d n m r u

theorem freed_dir {lo hi : Nat} (hd : own d = .dir) : freed own d lo hi d = .dir := by
  rw [freed, hd]
  rfl

include h₀ hd hpages in
/-- **The loop of `allocuvm`.** -/
theorem post_allocuvmLoop_outcome {fuel rounds oldsz newsz : Nat} (hm : 0 < m) (htop : m ≤ 524288)
    (hlow : n ≤ 524288) (hfuel : 524288 < fuel) (hold : pgroundup oldsz = n * 4096)
    (hnew : lastPage newsz = (m - 1) * 4096) (h : Filled s₀ own₀ fl₀ d n s own fl v) (hn : n ≤ v)
    (hv : v ≤ max n m) (hrounds : m - v + 1 < rounds) :
    Post (allocuvmLoop fuel (d * 4096) oldsz newsz rounds (v * 4096)) E
      (Outcome s₀ own₀ fl₀ d n m) s := by
  induction rounds generalizing s own fl v with
  | zero => omega
  | succ rounds ih =>
      have hd' := h.dir h₀ hd
      rw [allocuvmLoop, hnew]
      by_cases hvm : v < m
      · have hneeds := h.needsTable_iff h₀ hpages hd hn (show v < 1048576 by omega)
        have hnone : ∀ p, own p ≠ .page d v := by
          intro p hp
          by_cases hmem : p ∈ fl₀
          · rcases h.on p hmem with ho | ⟨i, ho⟩ | ⟨x, -, hlt, ho⟩
            · cases hp.symm.trans ho
            · cases hp.symm.trans ho
            · rw [ho, Owner.page.injEq] at hp
              omega
          · rw [h.off p hmem] at hp
            have := (hpages v).mp ⟨p, hp⟩
            omega
        rw [if_pos (by omega), next_page (by omega)]
        refine post_allocPage (f := fun _ => allocuvmLoop fuel (d * 4096) oldsz newsz rounds
            ((v + 1) * 4096)) (w := fun a => memset a 0 PGSIZE) h.owned hd' (by omega) hnone
          (show 0 < fuel by omega) (fills_memset 0) (fun hnil => ?_)
          (fun q fl' u hq ht hu hpage => ?_) (fun q t fl' u hq hno hu hpage => ?_)
          fun q u hq hno hu _ => ?_
        · -- no memory for the page
          subst hnil
          exact post_allocuvmShort h.owned hd' hold hnew hm (by omega) htop hfuel
            fun u fl' hu => .short h hvm hu
        · -- the table is there
          refine ih (h.next h₀ hd hn hu (q := q) (by rw [hq]; exact List.mem_cons_self ..)
            (update_self ..) (fun p => ?_) ?_ ?_ hpage) (by omega) (by omega) (by omega)
          · by_cases hp : p = q
            · exact Or.inr ⟨by rw [hp, hq]; exact List.mem_cons_self .., Or.inl hp⟩
            · exact Or.inl (update_of_ne hp ..)
          · obtain ⟨t, ht⟩ := ht
            refine ⟨t, ?_⟩
            rw [update_of_ne]
            · exact ht
            · rintro rfl
              cases ht.symm.trans ((h.owned.free t).mp (by rw [hq]; exact List.mem_cons_self ..))
          · rw [if_neg (fun hneed => hneeds.mpr hneed ht), hq, List.length_cons]
        · -- a new table
          have hqt := h.owned.head_ne hq
          refine ih (h.next h₀ hd hn hu (q := q) (by rw [hq]; exact List.mem_cons_self ..)
            (update_self ..) (fun p => ?_) ⟨t, ?_⟩ ?_ hpage) (by omega) (by omega) (by omega)
          · by_cases hp : p = q
            · exact Or.inr ⟨by rw [hp, hq]; exact List.mem_cons_self .., Or.inl hp⟩
            · rw [update_of_ne hp]
              by_cases hpt : p = t
              · rw [hpt, update_self]
                exact Or.inr ⟨by rw [hq]; simp, Or.inr rfl⟩
              · exact Or.inl (update_of_ne hpt ..)
          · rw [update_of_ne hqt.symm, update_self]
          · rw [if_pos (hneeds.mp hno), hq, List.length_cons, List.length_cons]
        · -- no memory for the table: the page is lost, and the next round is the last one
          have hqmem : q ∈ fl₀ := h.free_subset h₀ (by rw [hq]; exact List.mem_cons_self ..)
          have hstarved : TableStarved s₀.mem d n m fl₀.length := by
            refine ⟨v, hn, hvm, hneeds.mp hno, ?_⟩
            rw [h.count, hq, List.length_singleton]
            omega
          have hdir : update own q .held d = .dir := by
            rw [update_of_ne]
            · exact hd'
            · rintro rfl
              cases hd.symm.trans ((h₀.free d).mp hqmem)
          obtain ⟨rounds, rfl⟩ : ∃ r, rounds = r + 1 := ⟨rounds - 1, by omega⟩
          show Post (allocuvmLoop _ _ _ _ (rounds + 1) _) _ _ _
          rw [allocuvmLoop, hnew]
          by_cases hlast : v + 1 < m
          · rw [if_pos (by omega), post_bind]
            refine post_kalloc hu (fun _ => ?_) fun p fl' w hfl' => by cases hfl'
            refine post_allocuvmShort hu hdir hold hnew hm (by omega) htop hfuel
              fun w fl' hw => .starved hstarved hw (freed_dir hdir) hqmem ?_ (by rintro ⟨⟩)
            rw [freed_eq_of_not_ofSpace (by rw [update_self]; rfl), update_self]
          · rw [if_neg (by omega), post_pure]
            refine .starved hstarved hu hdir hqmem (update_self ..) fun _ =>
              ⟨by omega, fun p hp => ?_⟩
            by_cases hpq : p = q
            · rw [hpq, update_self] at hp
              cases hp
            · rw [update_of_ne hpq] at hp
              have hvlast : m - 1 = v := by omega
              rw [hvlast] at hp
              exact hnone p hp
      · rw [if_neg (by omega), post_pure]
        obtain rfl : v = max n m := by omega
        exact .done h

/-! ## What the outcomes mean for the page table -/

include hpages in
theorem Filled.page_iff (h : Filled s₀ own₀ fl₀ d n s own fl v) (h₀ : Owned s₀ own₀ fl₀) (q x : Nat) :
    own q = .page d x ↔
      x < n ∧ own₀ q = .page d x ∨ n ≤ x ∧ x < v ∧ q ∈ fl₀ ∧ own q = .page d x := by
  by_cases hmem : q ∈ fl₀
  · have hfree := (h₀.free q).mp hmem
    rw [hfree]
    constructor
    · intro hq
      rcases h.on q hmem with ho | ⟨i, ho⟩ | ⟨y, hy, hlt, ho⟩
      · cases hq.symm.trans ho
      · cases hq.symm.trans ho
      · obtain ⟨-, rfl⟩ := Owner.page.inj (ho.symm.trans hq)
        exact Or.inr ⟨hy, hlt, hmem, hq⟩
    · rintro (⟨-, ho⟩ | ⟨-, -, -, hq⟩)
      · cases ho
      · exact hq
  · rw [h.off q hmem]
    constructor
    · exact fun hq => Or.inl ⟨(hpages x).mp ⟨q, hq⟩, hq⟩
    · rintro (⟨-, hq⟩ | ⟨-, -, hq, -⟩)
      · exact hq
      · exact absurd hq hmem

include h₀ hd hpages in
/-- **Success.** -/
theorem Filled.grown (h : Filled s₀ own₀ fl₀ d n u own fl (max n m)) (hn : n ≤ 524288)
    (hm : m ≤ 524288) : Grown s₀ d n m u := by
  have hd' := h.dir h₀ hd
  have hpage := h.page_iff hpages h₀
  have hlook : ∀ x < 1048576, ∀ q, lookup u.mem d x = some q ↔ own q = .page d x :=
    fun x hx q => h.owned.lookup_eq_some_iff hd' hx
  refine ⟨(h.owned.mapsExactly_iff hd' (by omega)).mpr fun x => ⟨?_, fun hx => ?_⟩,
    fun x hx => h₀.lookup_congr h.owned hd hd' (by omega) fun q => ?_, fun x hx q hq k hk => ?_,
    fun x q hx hlt hq => ⟨?_, ?_⟩, fun x q hx hlt hq => ?_, fun x hx x' hx' q hq hq' => ?_⟩
  · rintro ⟨q, hq⟩
    rcases (hpage q x).mp hq with ⟨hlt, -⟩ | ⟨-, hlt, -⟩
    · omega
    · exact hlt
  · by_cases hxn : x < n
    · obtain ⟨q, hq⟩ := (hpages x).mpr hxn
      exact ⟨q, (hpage q x).mpr (Or.inl ⟨hxn, hq⟩)⟩
    · exact h.pages x (by omega) hx
  · rw [hpage q x]
    constructor
    · rintro (⟨-, hq⟩ | ⟨hge, -⟩)
      · exact hq
      · omega
    · exact fun hq => Or.inl ⟨hx, hq⟩
  · have hq₀ := (h₀.lookup_eq_some_iff hd (by omega)).mp hq
    refine h.keeps _ ?_
    rw [show (q * 4096 + k) / 4096 = q by omega]
    rintro (rfl | ho | ⟨i, ho⟩)
    · cases hq₀.symm.trans hd
    · cases hq₀.symm.trans ho
    · cases hq₀.symm.trans ho
  · rw [h₀.isFree_iff, ← h₀.free]
    rcases (hpage q x).mp ((hlook x (by omega) q).mp hq) with ⟨hlt, -⟩ | ⟨-, -, hmem, -⟩
    · omega
    · exact hmem
  · rw [h.owned.isFree_iff, (hlook x (by omega) q).mp hq]
    exact Owner.noConfusion
  · exact h.zero q x hx ((hlook x (by omega) q).mp hq)
  · exact (Owner.page.inj (((hlook x hx q).mp hq).symm.trans ((hlook x' hx' q).mp hq'))).2

include h₀ hd hpages in
/-- **The new pages are freed again.** -/
theorem Filled.restored (h : Filled s₀ own₀ fl₀ d n s own fl v) (hv : v ≤ max n m)
    (hu : Owned u (freed own d n m) fl') : Restored s₀ d u := by
  have hd' : freed own d n m d = .dir := freed_dir (h.dir h₀ hd)
  have hnew : ∀ p ∈ fl₀, ∀ x, own p = .page d x → freed own d n m p = .free := by
    intro p hp x hx
    refine if_pos ?_
    rcases (h.page_iff hpages h₀ p x).mp hx with ⟨-, ho⟩ | ⟨hge, hlt, -⟩
    · cases ho.symm.trans ((h₀.free p).mp hp)
    · rw [hx]
      exact decide_eq_true ⟨rfl, hge, by omega⟩
  have hold : ∀ p, p ∉ fl₀ → freed own d n m p = own₀ p := by
    intro p hp
    rw [← h.off p hp]
    exact freed_eq_of_lt fun x hx => (hpages x).mp ⟨p, h.off p hp ▸ hx⟩
  refine ⟨fun x hx => h₀.lookup_congr hu hd hd' hx fun q => ?_, fun p hp => ?_, fun p hp => ?_⟩
  · by_cases hmem : q ∈ fl₀
    · have hfree := (h₀.free q).mp hmem
      rw [hfree]
      refine ⟨fun hq => ?_, fun hq => by cases hq⟩
      have hown : own q = .page d x := by
        unfold freed at hq
        split at hq
        · cases hq
        · exact hq
      cases hq.symm.trans (hnew q hmem x hown)
    · rw [hold q hmem]
  · rw [h₀.isFree_iff, ← h₀.free] at hp
    rw [hu.isFree_iff]
    rcases h.on p hp with ho | ⟨i, ho⟩ | ⟨x, -, -, ho⟩
    · exact Or.inl (by rw [freed, ho]; rfl)
    · have hi := (h.owned.tabDir p d i ho).2
      refine Or.inr ⟨1024 * i, by omega, (hu.tableOf_eq_some_iff hd' (by omega)).mpr ?_⟩
      rw [freed, ho, Nat.mul_div_cancel_left i (by decide)]
      rfl
    · exact Or.inl (hnew p hp x ho)
  · rw [hu.isFree_iff] at hp
    rw [h₀.isFree_iff, ← h₀.free]
    by_contra hno
    rw [hold p hno] at hp
    exact hno ((h₀.free p).mpr hp)

/-- A page that is lost. -/
theorem not_restored_of_held (h₀ : Owned s₀ own₀ fl₀) {p : Nat} (hu : Owned u own fl)
    (hd : own d = .dir) (hp : p ∈ fl₀) (hlost : own p = .held) : ¬ Restored s₀ d u := by
  intro hres
  rcases hres.free p ((h₀.isFree_iff p).mpr ((h₀.free p).mp hp)) with hfree | ⟨v, hv, ht⟩
  · rw [hu.isFree_iff, hlost] at hfree
    cases hfree
  · have := (hu.tableOf_eq_some_iff hd hv).mp ht
    cases hlost.symm.trans this

/-- Memory does not run out at a page table if it is enough for all pages, or runs out at a
page. -/
theorem Filled.not_starved (h : Filled s₀ own₀ fl₀ d n s own fl v)
    (hv : m ≤ v ∨ fl = []) : ¬ TableStarved s₀.mem d n m fl₀.length := by
  rintro ⟨x, hx, hxm, hneeds, hlen⟩
  have hcount := h.count
  by_cases hxv : x < v
  · have := spent_lt hx hxv hneeds
    omega
  · rcases hv with hmv | rfl
    · omega
    · have hmono := spent_mono (m := s₀.mem) (d := d) (n := n) (Nat.le_of_not_lt hxv)
      rw [List.length_nil] at hcount
      omega

end Fill

/-! ## When they are inverses -/

section

variable {oldsz newsz : Nat}

/-- `allocuvm` to size zero does not return. -/
theorem not_inverses_zero (h : Owned s own fl) (hd : own d = .dir) : ¬ Inverses s d oldsz 0 := by
  rintro ⟨rounds, hinv⟩
  obtain ⟨r, u, heq, -⟩ := (hinv (rounds + 1) (by omega)).exists_ok
  have hnever : Post (allocuvm (rounds + 1) (d * 4096) oldsz 0) (fun _ => True)
      (fun _ _ => False) s := post_allocuvm_zero h hd (by omega) trivial trivial
  exact hnever.of_eq_ok heq

/-- The run of `allocuvm` to a size that is not zero. -/
theorem post_allocuvm_outcome (h : Owned s own fl) (hd : own d = .dir) (hold : oldsz ≤ USERTOP)
    (hnew : newsz ≤ USERTOP) (hpos : 0 < newsz)
    (hpages : ∀ v, (∃ q, own q = .page d v) ↔ v < pagesOf oldsz) {fuel : Nat}
    (hfuel : 1048576 < fuel) {Q : Nat → Phys → Prop}
    (hQ : ∀ r u, Outcome s own fl d (pagesOf oldsz) (pagesOf newsz) r u →
      Q (if r then max oldsz newsz else 0) u) :
    Post (allocuvm fuel (d * 4096) oldsz newsz) E Q s := by
  have hn := pagesOf_le hold
  have hm := pagesOf_le hnew
  rw [allocuvm, if_neg (by omega), post_bind, pgroundup_of_le hold]
  refine (post_allocuvmLoop_outcome h hd hpages (pagesOf_pos hpos) hm hn (by omega)
    (pgroundup_of_le hold) (lastPage_of_pos hnew hpos) (Filled.start h hpages) le_rfl
    (le_max_left _ _) (by omega)).mono (fun _ he => he) fun r u hr => post_pure.mpr ?_
  have hmax : (if newsz > oldsz then newsz else oldsz) = max oldsz newsz := by
    rcases Nat.lt_or_ge oldsz newsz with hlt | hge
    · rw [if_pos hlt, max_eq_right hlt.le]
    · rw [if_neg (by omega), max_eq_left hge]
  rw [hmax]
  exact hQ r u hr

/-- **The two are not inverses** when memory runs out at a page table. -/
theorem not_inverses_of_starved (h : Owned s own fl) (hd : own d = .dir) (hold : oldsz ≤ USERTOP)
    (hnew : newsz ≤ USERTOP) (hpos : 0 < newsz) (hmaps : MapsExactly s.mem d (pagesOf oldsz))
    (hs : TableStarved s.mem d (pagesOf oldsz) (pagesOf newsz) fl.length) :
    ¬ Inverses s d oldsz newsz := by
  rintro ⟨rounds, hinv⟩
  have hn := pagesOf_le hold
  have hm := pagesOf_le hnew
  have hpages := (h.mapsExactly_iff hd (by omega)).mp hmaps
  obtain ⟨x, u, heq, hx⟩ := (hinv (rounds + 1048577) (by omega)).exists_ok
  have hno : Post (allocuvm (rounds + 1048577) (d * 4096) oldsz newsz) (fun _ => False)
      (fun x u => ¬ if x = 0 then Restored s d u else
        Grown s d (pagesOf oldsz) (pagesOf newsz) u) s := by
    refine post_allocuvm_outcome h hd hold hnew hpos hpages (by omega) fun r u hr => ?_
    cases hr with
    | done hf => exact absurd hs (hf.not_starved (.inl (le_max_right _ _)))
    | short hf => exact absurd hs (hf.not_starved (.inr rfl))
    | starved _ hu hd' hp hlost hlast =>
        cases r with
        | false =>
            rw [if_neg Bool.false_ne_true, if_pos rfl]
            exact not_restored_of_held h hu hd' hp hlost
        | true =>
            obtain ⟨hlt, hunmapped⟩ := hlast rfl
            rw [if_pos rfl, if_neg (by omega)]
            intro hgrown
            obtain ⟨q, hq⟩ := Option.isSome_iff_exists.mp
              ((hgrown.maps (pagesOf newsz - 1) (by omega)).mpr (by omega))
            exact hunmapped q ((hu.lookup_eq_some_iff hd' (by omega)).mp hq)
  refine hno.of_eq_ok heq ?_
  by_cases h0 : x = 0
  · rw [if_pos h0] at hx ⊢
    exact hx
  · rw [if_neg h0] at hx ⊢
    exact hx.1

end

/-- **`allocuvm` and `deallocuvm` are inverses exactly when** the new size is not zero and memory
does not run out at a page table: for every two sizes of user memory, every directory that maps
exactly the pages of the old size, and every number of free pages. -/
theorem inverses_iff_not_starved (s : Phys) (own : Nat → Owner) (fl : List Nat)
    (h : Owned s own fl) (d oldsz newsz : Nat) (hd : own d = .dir) (hold : oldsz ≤ USERTOP)
    (hnew : newsz ≤ USERTOP) (hmaps : MapsExactly s.mem d (pagesOf oldsz)) :
    Inverses s d oldsz newsz ↔
      newsz ≠ 0 ∧ ¬ TableStarved s.mem d (pagesOf oldsz) (pagesOf newsz) fl.length := by
  have hn := pagesOf_le hold
  have hm := pagesOf_le hnew
  have hpages := (h.mapsExactly_iff hd (by omega)).mp hmaps
  constructor
  · intro hinv
    have hpos : newsz ≠ 0 := by
      rintro rfl
      exact not_inverses_zero h hd hinv
    exact ⟨hpos, fun hs =>
      not_inverses_of_starved h hd hold hnew (Nat.pos_of_ne_zero hpos) hmaps hs hinv⟩
  · rintro ⟨hne, hfed⟩
    have hpos : 0 < newsz := Nat.pos_of_ne_zero hne
    refine ⟨1048577, fun fuel hfuel =>
      post_allocuvm_outcome h hd hold hnew hpos hpages (by omega) fun r u hr => ?_⟩
    cases hr with
    | done hf =>
        rw [if_pos rfl, if_neg (by omega)]
        refine ⟨hf.grown h hd hpages hn hm, ?_⟩
        rw [deallocuvm, post_bind, pgroundup_of_le hold, lastPage_of_pos hnew hpos]
        exact post_deallocuvmLoop hf.owned (hf.dir h hd) (pagesOf_pos hpos) hm (by omega) (by omega)
          fun w fl' hw _ => post_pure.mpr (hf.restored h hd hpages le_rfl hw)
    | short hf hv hu =>
        rw [if_neg Bool.false_ne_true, if_pos rfl]
        exact hf.restored h hd hpages (by omega) hu
    | starved hs => exact absurd hs hfed

theorem inverses_onePage : Inverses onePage 256 1 5000 := by
  refine (inverses_iff_not_starved onePage onePageOwner [259, 260, 261] owned_onePage 256 1 5000 rfl
    (by decide) (by decide) mapsExactly_onePage).mpr ⟨by decide, ?_⟩
  rintro ⟨v, hge, hlt, hneeds, -⟩
  have hge' : 1 ≤ v := hge
  have hlt' : v < 2 := hlt
  have hmod := hneeds.1
  omega

/-- A memory with an empty address space, whose directory is at page 256, and with one free page. -/
def oneFree : Phys := ⟨fun _ => 0, 257 * 4096⟩

def oneFreeOwner (p : Nat) : Owner := if p = 256 then .dir else if p = 257 then .free else .none

theorem owned_oneFree : Owned oneFree oneFreeOwner [257] := by
  have hentry : ∀ p i, entry oneFree.mem p i = 0 := fun p i => rfl
  have hchain : FreeChain oneFree.mem oneFree.freelist [257] := ⟨rfl, by decide, rfl⟩
  refine ⟨?_, hchain, ?_, by decide, ?_, ?_, ?_, ?_, ?_, ?_⟩ <;> unfold oneFreeOwner <;> grind

/-- **Two ways to fail**: to size zero `allocuvm` does not return, and with one free page `allocuvm`
from 0 to 1 loses the page. -/
theorem not_inverses_zero_and_table : ¬ Inverses onePage 256 1 0 ∧ ¬ Inverses oneFree 256 0 1 := by
  refine ⟨not_inverses_zero owned_onePage rfl, not_inverses_of_starved owned_oneFree rfl (by decide)
    (by decide) (by decide) ?_ ⟨0, le_rfl, by decide, ⟨rfl, rfl⟩, rfl⟩⟩
  refine (owned_oneFree.mapsExactly_iff rfl (by decide)).mpr fun v => ⟨?_, fun hv => absurd hv ?_⟩
  · rintro ⟨q, hq⟩
    unfold oneFreeOwner at hq
    grind
  · exact Nat.not_lt_zero v

end Xv6.Vm

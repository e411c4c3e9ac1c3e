import Xv6.Vm.Walk

/-! # Address spaces

Specifications of `deallocuvm`, `freevm`, `allocuvm`, `copyuvm` and `switchuvm` in terms of the
owners of pages. -/

namespace Xv6.Vm

open Lib Run

open Function (update update_comm update_idem update_of_ne update_self)

variable {s : Phys} {own : Nat → Owner} {fl : List Nat} {E : Stop → Prop}

/-- The tables and pages of an address space. -/
def Owner.ofSpace (d : Nat) : Owner → Bool
  | .tab d' _ | .page d' _ => d' = d
  | _ => false

/-- The memories agree outside an address space. -/
def KeepsOthers (own : Nat → Owner) (d : Nat) (m m' : Nat → UInt8) : Prop :=
  ∀ x, x / 4096 ≠ d → (own (x / 4096)).ofSpace d = false → m' x = m x

theorem KeepsOthers.of_agreeOff {d p : Nat} {m m' : Nat → UInt8} (h : AgreeOff p m m')
    (hp : p = d ∨ (own p).ofSpace d) : KeepsOthers own d m m' := by
  intro x hd hx
  refine h x ?_
  rintro rfl
  rcases hp with rfl | hp
  · exact hd rfl
  · rw [hp] at hx
    cases hx

theorem KeepsOthers.trans {d : Nat} {m m' m'' : Nat → UInt8} (h : KeepsOthers own d m m')
    (h' : KeepsOthers own d m' m'') : KeepsOthers own d m m'' :=
  fun x hd hx => (h' x hd hx).trans (h x hd hx)

/-- It is enough to look at the pages that are still in the address space. -/
theorem KeepsOthers.mono {own' : Nat → Owner} {d : Nat} {m m' : Nat → UInt8}
    (h : KeepsOthers own' d m m') (hsub : ∀ p, (own' p).ofSpace d → (own p).ofSpace d) :
    KeepsOthers own d m m' := by
  intro x hd hx
  refine h x hd ?_
  by_contra hno
  rw [hsub _ (by simpa using hno)] at hx
  cases hx

/-! ## `deallocuvm` -/

/-- The owners after the pages of an address space in a range have been freed. -/
def freed (own : Nat → Owner) (d lo hi : Nat) : Nat → Owner :=
  fun p => if (own p).isPage d lo hi then .free else own p

variable {Q : Unit → Phys → Prop} {d lo hi p : Nat} {sz : Nat}

/-- **The body of the loop of `deallocuvm`** frees a page if it is mapped. -/
theorem post_deallocPage (h : Owned s own fl) {d v : Nat} (hd : own d = .dir) (hv : v < 1048576)
    (hpage : ∀ q u, own q = .page d v → Owned u (update own q .free) (q :: fl) →
      KeepsOthers own d s.mem u.mem → Q () u) (hnone : (∀ q, own q ≠ .page d v) → Q () s) :
    Post (deallocPage (d * 4096) (v * 4096)) E Q s := by
  have hj : v % 1024 < 1024 := by omega
  have hsplit : 1024 * (v / 1024) + v % 1024 = v := by omega
  rw [deallocPage, post_bind]
  refine post_walkpgdir h hd hv (fun t ht => ?_) fun hno => ?_
  · have hentry : le32 s.mem (t * 4096 + 4 * (v % 1024)) = entry s.mem t (v % 1024) := rfl
    simp only [post_bind, post_load]
    rw [hentry]
    have htab := h.tab t d _ _ ht hj
    rw [hsplit] at htab
    rcases htab with ⟨q, hq, he⟩ | ⟨hno, he⟩
    · have hqv := h.valid q (by rw [hq]; exact Owner.noConfusion)
      rw [he, if_pos (by rw [pteOf_and]; decide), pteAddr_pteOf, if_neg (by omega), post_bind]
      refine post_kfree_eq hqv ?_
      rw [post_storeWord]
      have hqt : q ≠ t := by
        rintro rfl
        cases hq.symm.trans ht
      -- the two writes are to different pages: unmap first, then give the page back
      have hunmap := h.unmapPage ht hj (by rw [hsplit]; exact hq)
      have hgive := hunmap.give (p := q) (update_self _ _ _)
        (m := put (put (fill s.mem (q * 4096) 1 PGSIZE) (q * 4096) (bytes32 s.freelist))
          (t * 4096 + 4 * (v % 1024)) (bytes32 0)) ?_ ?_
      · rw [update_idem] at hgive
        refine hpage q _ hq hgive (.trans (.trans (.of_agreeOff agreeOff_fill (p := q) ?_)
          (.of_agreeOff (agreeOff_put_zero (by simp)) (p := q) ?_))
          (.of_agreeOff (agreeOff_put (by rw [length_bytes32]; omega)) (p := t) ?_))
        · rw [hq]
          simp [Owner.ofSpace]
        · rw [hq]
          simp [Owner.ofSpace]
        · rw [ht]
          simp [Owner.ofSpace]
      · intro x hx
        have hold : put (fill s.mem (q * 4096) 1 PGSIZE) (q * 4096) (bytes32 s.freelist) x =
            s.mem x := (agreeOff_fill.trans (agreeOff_put_zero (by simp))) x hx
        simp only [put] at hold ⊢
        rw [hold]
      · rw [le32_put_of_disjoint _ _ _ (by rw [length_bytes32]; omega), le32_put_self,
          Nat.mod_eq_of_lt h.freelist_lt]
    · rw [he, if_neg (by decide), post_pure]
      exact hnone hno
  · refine post_pure.mpr (hnone fun q hq => ?_)
    obtain ⟨t, ht⟩ := h.pageTab q d v hq
    exact hno t ht

/-- The address of the next page. -/
theorem next_page {v : Nat} (hv : v < 1048575) :
    (v * 4096 + PGSIZE) % 4294967296 = (v + 1) * 4096 := by
  unfold PGSIZE
  omega

theorem isPage_succ (h : own p ≠ .page d lo) :
    (own p).isPage d (lo + 1) hi = (own p).isPage d lo hi := by
  cases ho : own p with
  | page d' v =>
      have hne : d' = d → v ≠ lo := by
        rintro rfl rfl
        exact h ho
      simp only [Owner.isPage, decide_eq_decide]
      omega
  | _ => rfl

/-- Freeing one page and then those after it. -/
theorem freed_update (h : Owned s own fl) {d lo hi q : Nat} (hlo : lo < hi)
    (hq : own q = .page d lo) :
    freed (update own q .free) d (lo + 1) hi = freed own d lo hi := by
  funext p
  unfold freed
  by_cases hp : p = q
  · subst hp
    rw [update_self, hq]
    simp [Owner.isPage, hlo]
  · rw [update_of_ne hp, isPage_succ fun ho => hp (h.pageInj p q _ _ ho hq)]

theorem freed_of_none {d lo hi : Nat} (hno : ∀ q, own q ≠ .page d lo) :
    freed own d (lo + 1) hi = freed own d lo hi := by
  funext p
  unfold freed
  rw [isPage_succ (hno p)]

theorem freed_empty {d lo hi : Nat} (h : hi ≤ lo) : freed own d lo hi = own := by
  funext p
  unfold freed
  cases ho : own p with
  | page d' v =>
      rw [if_neg]
      simp only [Owner.isPage, decide_eq_true_eq]
      omega
  | _ => rfl

/-- **The loop of `deallocuvm`** frees the pages of a range below the end of user memory. -/
theorem post_deallocuvmLoop (h : Owned s own fl) {d lo hi fuel : Nat} (hd : own d = .dir)
    (hhi : 0 < hi) (htop : hi ≤ 524288) (hlo : lo ≤ 1048575) (hfuel : hi - lo < fuel)
    (hQ : ∀ u fl', Owned u (freed own d lo hi) fl' → KeepsOthers own d s.mem u.mem → Q () u) :
    Post (deallocuvmLoop (d * 4096) ((hi - 1) * 4096) fuel (lo * 4096)) E Q s := by
  induction fuel generalizing s own fl lo with
  | zero => omega
  | succ fuel ih =>
      rw [deallocuvmLoop]
      by_cases hle : lo < hi
      · rw [if_pos (by omega), post_bind]
        rw [next_page (by omega)]
        refine post_deallocPage h hd (by omega) (fun q u hq hu hkeep => ?_) fun hno => ?_
        · refine ih hu ?_ (by omega) (by omega) fun w fl' hw hkeep' => hQ w fl' ?_
            (hkeep.trans (hkeep'.mono fun p hp => ?_))
          · rw [update_of_ne]
            · exact hd
            · rintro rfl
              cases hd.symm.trans hq
          · rwa [freed_update h hle hq] at hw
          · by_cases hpq : p = q
            · rw [hpq, update_self] at hp
              cases hp
            · rwa [update_of_ne hpq] at hp
        · exact ih h hd (by omega) (by omega) fun w fl' hw hkeep => hQ w fl' (by
            rwa [freed_of_none hno] at hw) hkeep
      · rw [if_neg (by omega), post_pure]
        refine hQ s fl ?_ fun _ _ _ => rfl
        rw [freed_empty (by omega)]
        exact h

/-! ## `freevm` -/

/-- The owners while `freevm` frees the tables of an address space without pages: those with a
number below `i` are free. -/
def tearing (own : Nat → Owner) (d i : Nat) : Nat → Owner := fun p =>
  if p = d then .held
  else match own p with
    | .tab d' j => if d' = d then (if j < i then .free else .held) else own p
    | o => o

theorem tearing_zero_eq (own : Nat → Owner) (d p : Nat) :
    tearing own d 0 p = if p = d ∨ (own p).isTab d then .held else own p := by
  unfold tearing
  by_cases hp : p = d
  · rw [if_pos hp, if_pos (.inl hp)]
  · rw [if_neg hp]
    cases ho : own p with
    | tab d' j =>
        by_cases hd : d' = d
        · simp [Owner.isTab, hd]
        · simp [Owner.isTab, hd, hp]
    | _ => simp [Owner.isTab, hp]

theorem tearing_succ {d i p : Nat} (h : own p ≠ .tab d i) :
    tearing own d (i + 1) p = tearing own d i p := by
  unfold tearing
  cases ho : own p with
  | tab d' j =>
      have hlt : d' = d → (j < i + 1 ↔ j < i) := by
        rintro rfl
        have : j ≠ i := fun hj => h (by rw [ho, hj])
        omega
      by_cases hd : d' = d
      · simp only [hd, if_true, hlt hd]
      · simp only [hd, if_false]
  | _ => rfl

/-- **The loop of `freevm`** frees the tables. -/
theorem post_freevmLoop {d n i : Nat} (hd : own d = .dir)
    (hinj : ∀ t t' j, own t = .tab d j → own t' = .tab d j → t = t') (hn : i + n = 1024)
    (h : Owned s (tearing own d i) fl)
    (hdir : ∀ j, i ≤ j → j < 1024 → (∃ t, own t = .tab d j ∧ entry s.mem d j = pteOf t) ∨
      ((∀ t, own t ≠ .tab d j) ∧ entry s.mem d j = 0))
    (hQ : ∀ u fl', Owned u (tearing own d 1024) fl' → KeepsOthers own d s.mem u.mem → Q () u) :
    Post (freevmLoop (d * 4096) n i) E Q s := by
  induction n generalizing s fl i with
  | zero =>
      obtain rfl : i = 1024 := by omega
      exact post_pure.mpr (hQ s fl h fun _ _ _ => rfl)
  | succ n ih =>
      have hentry : le32 s.mem (d * 4096 + 4 * i) = entry s.mem d i := rfl
      rw [freevmLoop, post_bind, post_load, hentry]
      rcases hdir i le_rfl (by omega) with ⟨t, ht, he⟩ | ⟨hno, he⟩
      · have htd : t ≠ d := by
          rintro rfl
          cases hd.symm.trans ht
        have hheld : tearing own d i t = .held := by
          simp [tearing, htd, ht]
        have hnext : update (tearing own d i) t .free = tearing own d (i + 1) := by
          funext p
          by_cases hp : p = t
          · subst hp
            rw [update_self]
            simp [tearing, htd, ht]
          · rw [update_of_ne hp, tearing_succ fun ho => hp (hinj p t _ ho ht)]
        rw [post_bind, he, if_pos (by rw [pteOf_and]; decide), pteAddr_pteOf]
        refine post_kfree h hheld fun u hmem hu => ?_
        rw [hnext] at hu
        refine ih (by omega) hu (fun j hij hj => ?_) fun w fl' hw hkeep => hQ w fl' hw
          (.trans (.of_agreeOff hmem (.inr ?_)) hkeep)
        · rw [hmem.entry (Ne.symm htd) hj]
          exact hdir j (by omega) hj
        · rw [ht]
          simp [Owner.ofSpace]
      · have hsame : tearing own d i = tearing own d (i + 1) :=
          funext fun p => (tearing_succ (hno p)).symm
        rw [post_bind, he, if_neg (by decide), post_pure]
        rw [hsame] at h
        exact ih (by omega) h (fun j hij hj => hdir j (by omega) hj) hQ

/-- The owners after an address space has been freed. -/
def released (own : Nat → Owner) (d : Nat) : Nat → Owner :=
  fun p => if p = d ∨ (own p).ofSpace d then .free else own p

theorem update_tearing_eq {d hi : Nat} (hd : own d = .dir)
    (hlow : ∀ q v, own q = .page d v → v < hi) (htop : ∀ t i, own t = .tab d i → i < 1024) :
    update (tearing (freed own d 0 hi) d 1024) d .free = released own d := by
  funext p
  by_cases hp : p = d
  · subst hp
    rw [update_self]
    simp [released]
  · rw [update_of_ne hp]
    unfold tearing freed released
    cases ho : own p with
    | tab d' j =>
        by_cases hd' : d' = d
        · subst hd'
          simp [Owner.isPage, Owner.ofSpace, hp, htop p j ho]
        · simp [Owner.isPage, Owner.ofSpace, hp, hd']
    | page d' v =>
        by_cases hd' : d' = d
        · subst hd'
          simp [Owner.isPage, Owner.ofSpace, hp, hlow p v ho]
        · simp [Owner.isPage, Owner.ofSpace, hp, hd']
    | _ => simp [Owner.isPage, Owner.ofSpace, hp]

/-- **`freevm`** frees an address space. -/
theorem post_freevm (h : Owned s own fl) {d fuel : Nat} (hd : own d = .dir)
    (hlow : ∀ q v, own q = .page d v → v < 524288) (hfuel : 524288 < fuel)
    (hQ : ∀ u fl', Owned u (released own d) fl' → KeepsOthers own d s.mem u.mem → Q () u) :
    Post (freevm fuel (d * 4096)) E Q s := by
  have hdv := h.valid d (by rw [hd]; exact Owner.noConfusion)
  have hlast : lastPage USERTOP = (524288 - 1) * 4096 := rfl
  have hfirst : pgroundup 0 = 0 * 4096 := rfl
  rw [freevm, if_neg (by omega), post_bind, deallocuvm, post_bind, hlast, hfirst]
  refine post_deallocuvmLoop h hd (by decide) le_rfl (by decide) (by omega) fun u fl₁ hu hkeep => ?_
  have hd₁ : freed own d 0 524288 d = .dir := by
    unfold freed
    rw [hd]
    rfl
  have hnone : ∀ q v, freed own d 0 524288 q ≠ .page d v := by
    intro q v hq
    unfold freed at hq
    by_cases hin : (own q).isPage d 0 524288
    · rw [if_pos hin] at hq
      cases hq
    · rw [if_neg hin] at hq
      rw [hq] at hin
      exact hin (by simp [Owner.isPage, hlow q v hq])
  rw [post_pure, post_bind]
  refine post_freevmLoop hd₁ (fun t t' j => hu.tabInj t t' d j) rfl
    (hu.dropSpace hd₁ hnone (tearing_zero_eq _ d)) (fun j _ hj => hu.dir d j hd₁ hj)
    fun w fl₂ hw hkeep₁ => ?_
  refine post_kfree hw (by simp [tearing]) fun x hmem hx => ?_
  rw [update_tearing_eq hd hlow fun t i ht => (h.tabDir t d i ht).2] at hx
  refine hQ x _ hx ((hkeep.trans (hkeep₁.mono fun p hp => ?_)).trans (.of_agreeOff hmem (.inl rfl)))
  unfold freed at hp
  split at hp
  · cases hp
  · exact hp

/-! ## `allocuvm` -/

/-- The number of pages of a size. -/
def pagesOf (sz : Nat) : Nat := (sz + 4095) / 4096

/-- The number of page tables for the first `n` pages. -/
def tablesFor (n : Nat) : Nat := (n + 1023) / 1024

/-- The address space `d` has exactly the first `n` pages and the first `k` tables. -/
structure Shape (own : Nat → Owner) (d n k : Nat) : Prop where
  dir : own d = .dir
  pages : ∀ v, (∃ q, own q = .page d v) ↔ v < n
  tabs : ∀ i, (∃ t, own t = .tab d i) ↔ i < k

theorem Shape.le (hs : Owned s own fl) {d n k : Nat} (h : Shape own d n k) : n ≤ 1024 * k := by
  by_contra hlt
  obtain ⟨q, hq⟩ := (h.pages (n - 1)).mpr (by omega)
  obtain ⟨t, ht⟩ := hs.pageTab q d _ hq
  have := (h.tabs _).mp ⟨t, ht⟩
  omega

/-- The number of pages that have to be allocated to go from `n` pages and `k` tables to `m`
pages. -/
def cost (n k m : Nat) : Nat := (m - n) + (tablesFor m - k)

/-- With `f` free pages the allocation runs out of memory just when it needs a page table. -/
def TableShort (f n k m : Nat) : Prop :=
  ∃ j, k ≤ j ∧ n ≤ 1024 * j ∧ 1024 * j < m ∧ f = (1024 * j - n) + (j - k) + 1

/-- With `f` free pages there is memory for all `m` pages, but not for the table of the last one. -/
def LastTableShort (f n k m : Nat) : Prop :=
  n < m ∧ m % 1024 = 1 ∧ k < tablesFor m ∧ f + 1 = cost n k m

/-- The owners change from `own` to `own'` only for pages that were free. -/
structure Uses (own own' : Nat → Owner) (d : Nat) (used : List Nat) : Prop where
  off : ∀ p, p ∉ used → own' p = own p
  on : ∀ p ∈ used, (own' p).ofSpace d

theorem pgroundup_of_le (h : sz ≤ USERTOP) : pgroundup sz = pagesOf sz * 4096 := by
  unfold pgroundup pagesOf PGSIZE
  unfold USERTOP at h
  omega

theorem lastPage_of_pos (h : sz ≤ USERTOP) (hpos : 0 < sz) :
    lastPage sz = (pagesOf sz - 1) * 4096 := by
  unfold lastPage pgrounddown pagesOf PGSIZE
  unfold USERTOP at h
  omega

theorem pagesOf_le (h : sz ≤ USERTOP) : pagesOf sz ≤ 524288 := by
  unfold pagesOf
  unfold USERTOP at h
  omega

theorem pagesOf_pos (h : 0 < sz) : 0 < pagesOf sz := by
  unfold pagesOf
  omega

theorem exists_update_iff {q : Nat} {o x : Owner} (hq : own q ≠ x) :
    (∃ p, update own q o p = x) ↔ o = x ∨ ∃ p, own p = x := by
  constructor
  · rintro ⟨p, hp⟩
    by_cases hpq : p = q
    · rw [hpq, update_self] at hp
      exact .inl hp
    · rw [update_of_ne hpq] at hp
      exact .inr ⟨p, hp⟩
  · rintro (ho | ⟨p, hp⟩)
    · exact ⟨q, by rw [update_self, ho]⟩
    · refine ⟨p, ?_⟩
      rw [update_of_ne]
      · exact hp
      · rintro rfl
        exact hq hp

/-- A page that belongs to no address space. -/
def Owner.loose : Owner → Prop
  | .free | .held => True
  | _ => False

/-- A page that belonged to no address space changes its owner. -/
theorem Shape.update {d n k n' k' q : Nat} {o : Owner} (h : Shape own d n k) (hq : (own q).loose)
    (hpages : ∀ v, v < n' ↔ o = .page d v ∨ v < n) (htabs : ∀ i, i < k' ↔ o = .tab d i ∨ i < k) :
    Shape (Function.update own q o) d n' k' := by
  refine ⟨?_, fun v => ?_, fun i => ?_⟩
  · rw [update_of_ne]
    · exact h.dir
    · rintro rfl
      rw [h.dir] at hq
      exact hq
  · rw [exists_update_iff (by intro hv; rw [hv] at hq; exact hq), h.pages, hpages]
  · rw [exists_update_iff (by intro hv; rw [hv] at hq; exact hq), h.tabs, htabs]

/-- One more page. -/
theorem Shape.addPage {d n k q : Nat} (h : Shape own d n k) (hq : (own q).loose) :
    Shape (Function.update own q (.page d n)) d (n + 1) k :=
  h.update hq (fun v => by simp only [Owner.page.injEq, true_and]; omega) fun i => by simp

/-- One more table. -/
theorem Shape.addTab {d n k t : Nat} (h : Shape own d n k) (ht : (own t).loose) :
    Shape (Function.update own t (.tab d k)) d n (k + 1) :=
  h.update ht (fun v => by simp) fun i => by simp only [Owner.tab.injEq, true_and]; omega

/-- A page is taken for other use. -/
theorem Shape.hold {d n k q : Nat} (h : Shape own d n k) (hq : (own q).loose) :
    Shape (Function.update own q .held) d n k :=
  h.update hq (fun v => by simp) fun i => by simp

/-- Freeing the pages from `lo` on. -/
theorem Shape.freed {d n k lo hi : Nat} (h : Shape own d n k) (hhi : n ≤ hi) (hlo : lo ≤ n) :
    Shape (freed own d lo hi) d lo k := by
  unfold Vm.freed
  refine ⟨?_, fun v => ?_, fun i => ?_⟩
  · rw [h.dir]
    rfl
  · constructor
    · rintro ⟨q, hq⟩
      by_cases hin : (own q).isPage d lo hi
      · rw [if_pos hin] at hq
        cases hq
      · rw [if_neg hin] at hq
        have hv := (h.pages v).mp ⟨q, hq⟩
        rw [hq] at hin
        by_contra hge
        exact hin (decide_eq_true ⟨rfl, by omega, by omega⟩)
    · intro hv
      obtain ⟨q, hq⟩ := (h.pages v).mpr (by omega)
      refine ⟨q, ?_⟩
      rw [if_neg]
      · exact hq
      · rw [hq]
        simp only [Owner.isPage, decide_eq_true_eq]
        omega
  · rw [← h.tabs i]
    constructor
    · rintro ⟨t, ht⟩
      by_cases hin : (own t).isPage d lo hi
      · rw [if_pos hin] at ht
        cases ht
      · rw [if_neg hin] at ht
        exact ⟨t, ht⟩
    · rintro ⟨t, ht⟩
      exact ⟨t, by rw [ht]; rfl⟩

/-- **How an allocation from `n` to `m` pages ends** for an address space with `k` tables. -/
inductive Grow (own : Nat → Owner) (fl : List Nat) (d n k m : Nat) : Bool → Phys → Prop
  /-- There is enough memory. -/
  | done {u : Phys} {own' : Nat → Owner} {used fl' : List Nat} (hu : Owned u own' fl')
      (hfl : fl = used ++ fl') (hlen : used.length = cost n k m) (huses : Uses own own' d used)
      (hshape : Shape own' d (max n m) (max k (tablesFor m))) : Grow own fl d n k m true u
  /-- There is no memory for a page; the pages allocated so far are freed. -/
  | short {u : Phys} {own' : Nat → Owner} {fl' : List Nat} {k' : Nat} (hu : Owned u own' fl')
      (hlen : fl.length < cost n k m) (htab : ¬ TableShort fl.length n k m)
      (hoff : ∀ p, p ∉ fl → own' p = own p)
      (hon : ∀ p ∈ fl, own' p = .free ∨ (own' p).ofSpace d)
      (hshape : Shape own' d n k') : Grow own fl d n k m false u
  /-- There is no memory for a page table; a page is lost. -/
  | leak {u : Phys} {own' : Nat → Owner} {fl' : List Nat} {n' k' p : Nat} {r : Bool}
      (hu : Owned u own' fl') (htab : TableShort fl.length n k m)
      (hoff : ∀ p, p ∉ fl → own' p = own p)
      (hon : ∀ p ∈ fl, own' p = .free ∨ own' p = .held ∨ (own' p).ofSpace d)
      (hp : p ∈ fl) (hlost : own' p = .held) (hshape : Shape own' d n' k')
      (hr : if r then fl' = [] ∧ n' + 1 = m ∧ n' = 1024 * k' ∧ LastTableShort fl.length n k m
        else n' = n ∧ ¬ LastTableShort fl.length n k m) :
      Grow own fl d n k m r u

/-- Pages below the range that is freed keep their owner. -/
theorem freed_eq_of_lt (h : ∀ v, own p = .page d v → v < lo) : freed own d lo hi p = own p := by
  unfold freed
  cases ho : own p with
  | page d' v =>
      refine if_neg fun hin => ?_
      obtain ⟨rfl, hge, -⟩ := of_decide_eq_true hin
      have := h v ho
      omega
  | _ => rfl

/-- The owners of pages outside the address space after pages of it have been freed. -/
theorem freed_eq_of_not_ofSpace (h : (own p).ofSpace d = false) : freed own d lo hi p = own p :=
  freed_eq_of_lt fun v ho => by simp [ho, Owner.ofSpace] at h

theorem freed_ofSpace (h : (own p).ofSpace d) :
    freed own d lo hi p = .free ∨ (freed own d lo hi p).ofSpace d := by
  unfold freed
  by_cases hin : (own p).isPage d lo hi
  · exact .inl (if_pos hin)
  · rw [if_neg hin]
    exact .inr h

/-- `allocuvm` finds no page and frees those it has allocated. -/
theorem post_allocuvmShort (h : Owned s own fl) {d n m fuel oldsz newsz : Nat} (hd : own d = .dir)
    (hold : pgroundup oldsz = n * 4096) (hnew : lastPage newsz = (m - 1) * 4096) (hm : 0 < m)
    (hn : n ≤ m) (htop : m ≤ 524288) (hfuel : 524288 < fuel) {Q : Bool → Phys → Prop}
    (hQ : ∀ u fl', Owned u (freed own d n m) fl' → Q false u) :
    Post (do
      let _ ← deallocuvm fuel (d * 4096) newsz oldsz
      pure false) E Q s := by
  rw [post_bind, deallocuvm, post_bind, hold, hnew]
  refine post_deallocuvmLoop h hd hm htop (by omega) (by omega) fun u fl' hu _ => ?_
  rw [post_pure, post_pure]
  exact hQ u fl' hu

/-- There is a page table for the virtual page `v`. -/
def Tabbed (own : Nat → Owner) (d v : Nat) : Prop := ∃ t, own t = .tab d (v / 1024)

/-- `w` fills a page with the bytes that `c` computes from the memory. -/
def Fills (E : Stop → Prop) (w : Nat → VmM Unit) (c : (Nat → UInt8) → Nat → UInt8) : Prop :=
  ∀ q u (R : Unit → Phys → Prop),
    (∀ m, AgreeOff q u.mem m → (∀ k < 4096, m (q * 4096 + k) = c u.mem k) →
      R () { u with mem := m }) →
    Post (w (q * 4096)) E R u

theorem fills_memset (b : UInt8) : Fills E (fun a => memset a b PGSIZE) fun _ _ => b := by
  intro q u R hR
  refine post_memset.mpr (hR _ agreeOff_fill fun k hk => ?_)
  rw [fill, if_pos]
  unfold PGSIZE
  omega

/-- What the allocation of the page `q` for the address space `d` does to the memory. -/
structure NewPage (own : Nat → Owner) (d q : Nat) (c : Nat → UInt8) (m m' : Nat → UInt8) :
    Prop where
  bytes : ∀ k < 4096, m' (q * 4096 + k) = c k
  keeps : KeepsRest own d m m'

/-- A page that was free is taken, filled and mapped. -/
theorem NewPage.of_held {d q : Nat} {c m m₁ m' : Nat → UInt8} (hq : own q = .free) (hd : own d = .dir)
    (hfill : AgreeOff q m m₁) (hbytes : ∀ k < 4096, m₁ (q * 4096 + k) = c k)
    (hmap : KeepsRest (update own q .held) d m₁ m') : NewPage own d q c m m' where
  bytes k hk := by
    have hpage : (q * 4096 + k) / 4096 = q := by omega
    rw [hmap _ ?_, hbytes k hk]
    rw [hpage]
    rintro (rfl | ho | ⟨i, ho⟩)
    · cases hd.symm.trans hq
    · rw [update_self] at ho
      cases ho
    · rw [update_self] at ho
      cases ho
  keeps x hx := by
    have hne : x / 4096 ≠ q := fun heq => hx (.inr (.inl (heq ▸ hq)))
    rw [hmap x ?_, hfill x hne]
    unfold Scratch
    rwa [update_of_ne hne]

/-- **The allocation of one page**, as in the loops of `allocuvm` and `copyuvm`: take a page, fill
it and map it. -/
theorem post_allocPage (h : Owned s own fl) {d v fuel : Nat} (hd : own d = .dir) (hv : v < 1048576)
    (hfree : ∀ p, own p ≠ .page d v) (hfuel : 0 < fuel) {w : Nat → VmM Unit}
    {c : (Nat → UInt8) → Nat → UInt8} (hinit : Fills E w c)
    {f : Bool → VmM Bool} {g : VmM Bool} {Q : Bool → Phys → Prop} (hnil : fl = [] → Post g E Q s)
    (htab : ∀ q fl' u, fl = q :: fl' → Tabbed own d v →
      Owned u (update own q (.page d v)) fl' →
      NewPage own d q (c s.mem) s.mem u.mem → Post (f true) E Q u)
    (hnew : ∀ q t fl' u, fl = q :: t :: fl' → ¬ Tabbed own d v →
      Owned u (update (update own t (.tab d (v / 1024))) q (.page d v)) fl' →
      NewPage own d q (c s.mem) s.mem u.mem → Post (f true) E Q u)
    (hleak : ∀ q u, fl = [q] → ¬ Tabbed own d v → Owned u (update own q .held) [] →
      AgreeOff q s.mem u.mem → Post (f false) E Q u) :
    Post (do
      let mem ← kalloc
      match mem with
      | none => g
      | some mem => do
          w mem
          let ok ← mappages fuel (d * 4096) (v * 4096) PGSIZE mem PTEL_DEFAULT
          f ok) E Q s := by
  rw [post_bind]
  refine post_kalloc h hnil fun q fl' u hfl hmem hu => ?_
  have hqfree : own q = .free := h.head_free hfl
  have hheld : update own q Owner.held q = .held := update_self _ _ _
  have hold : ∀ p o, o ≠ .free → o ≠ .held → (update own q .held p = o ↔ own p = o) := by
    intro p o hf hh
    by_cases hp : p = q
    · rw [hp, hheld, hqfree]
      exact ⟨fun ho => absurd ho.symm hh, fun ho => absurd ho.symm hf⟩
    · rw [update_of_ne hp]
  have hdir : update own q .held d = .dir :=
    (hold d _ Owner.noConfusion Owner.noConfusion).mpr hd
  have htabs : ∀ t, update own q .held t = .tab d (v / 1024) ↔ own t = .tab d (v / 1024) :=
    fun t => hold t _ Owner.noConfusion Owner.noConfusion
  rw [post_bind]
  refine hinit q u _ fun m hm hbytes => ?_
  rw [hmem] at hm hbytes
  have hclear := hu.write (p := q) (by rw [hheld]; exact id) (hmem ▸ hm)
  rw [post_bind]
  refine post_mappages hclear hdir hv hfuel hheld
    (fun p hp => hfree p ((hold p _ Owner.noConfusion Owner.noConfusion).mp hp))
    (fun t w ht hw hmap => ?_) (fun t fl'' w hno hfl' hw hmap => ?_) fun hno hfl' => ?_
  · rw [update_idem] at hw
    exact htab q fl' w hfl ⟨t, (htabs t).mp ht⟩ hw (.of_held hqfree hd hm hbytes hmap)
  · have hqt := h.head_ne (hfl.trans (congrArg (q :: ·) hfl'))
    rw [update_comm hqt.symm, update_idem, update_comm hqt] at hw
    exact hnew q t fl'' w (by rw [hfl, hfl']) (fun ⟨t', ht'⟩ => hno t' ((htabs t').mpr ht')) hw
      (.of_held hqfree hd hm hbytes hmap)
  · subst hfl'
    exact hleak q _ hfl (fun ⟨t', ht'⟩ => hno t' ((htabs t').mpr ht')) hclear hm

theorem Shape.tabbed_iff {d n k v : Nat} (h : Shape own d n k) : Tabbed own d v ↔ v / 1024 < k :=
  h.tabs _

/-- The allocation of the next page of an address space without holes. -/
theorem post_newPage (h : Owned s own fl) {d n k fuel : Nat} (hshape : Shape own d n k)
    (hn : n < 524288) (hfuel : 0 < fuel) {w : Nat → VmM Unit}
    {c : (Nat → UInt8) → Nat → UInt8} (hinit : Fills E w c)
    {f : Bool → VmM Bool} {g : VmM Bool} {Q : Bool → Phys → Prop} (hnil : fl = [] → Post g E Q s)
    (htab : ∀ q fl' u, fl = q :: fl' → n < 1024 * k →
      Owned u (update own q (.page d n)) fl' →
      Shape (update own q (.page d n)) d (n + 1) k →
      NewPage own d q (c s.mem) s.mem u.mem → Post (f true) E Q u)
    (hnew : ∀ q t fl' u, fl = q :: t :: fl' → n = 1024 * k →
      Owned u (update (update own t (.tab d k)) q (.page d n)) fl' →
      Shape (update (update own t (.tab d k)) q (.page d n)) d (n + 1) (k + 1) →
      NewPage own d q (c s.mem) s.mem u.mem → Post (f true) E Q u)
    (hleak : ∀ q u, fl = [q] → n = 1024 * k → Owned u (update own q .held) [] →
      Shape (update own q .held) d n k → Post (f false) E Q u) :
    Post (do
      let mem ← kalloc
      match mem with
      | none => g
      | some mem => do
          w mem
          let ok ← mappages fuel (d * 4096) (n * 4096) PGSIZE mem PTEL_DEFAULT
          f ok) E Q s := by
  have hle := hshape.le h
  have hloose : ∀ p ∈ fl, (own p).loose := fun p hp => by
    rw [(h.free p).mp hp]
    trivial
  refine post_allocPage h hshape.dir (by omega)
    (fun p hp => absurd ((hshape.pages n).mp ⟨p, hp⟩) (by omega)) hfuel hinit hnil
    (fun q fl' u hfl ht hu hpage => ?_) (fun q t fl' u hfl hno hu hpage => ?_)
    fun q u hfl hno hu _ => ?_
  · rw [hshape.tabbed_iff] at ht
    exact htab q fl' u hfl (by omega) hu (hshape.addPage (hloose q (by rw [hfl]; simp))) hpage
  · rw [hshape.tabbed_iff] at hno
    have hdiv : n / 1024 = k := by omega
    have hqt := h.head_ne hfl
    rw [hdiv] at hu
    refine hnew q t fl' u hfl (by omega) hu ?_ hpage
    refine (hshape.addTab (hloose t (by rw [hfl]; simp))).addPage ?_
    rw [update_of_ne hqt]
    exact hloose q (by rw [hfl]; simp)
  · rw [hshape.tabbed_iff] at hno
    exact hleak q u hfl (by omega) hu (hshape.hold (hloose q (by rw [hfl]; simp)))

theorem Uses.update {own₀ : Nat → Owner} {d q : Nat} {used : List Nat} {o : Owner}
    (h : Uses own₀ own d used) (ho : o.ofSpace d) :
    Uses own₀ (update own q o) d (used ++ [q]) := by
  refine ⟨fun p hp => ?_, fun p hp => ?_⟩
  · have hpq : p ≠ q := fun heq => hp (by simp [heq])
    rw [update_of_ne hpq]
    exact h.off p fun hmem => hp (List.mem_append_left _ hmem)
  · by_cases hpq : p = q
    · rw [hpq, update_self]
      exact ho
    · rw [update_of_ne hpq]
      refine h.on p ?_
      simpa [hpq] using hp

/-- **The loop of `allocuvm`** at page `v`, having started at page `n` with `k` tables. -/
theorem post_allocuvmLoop {own₀ : Nat → Owner} {fl₀ used : List Nat}
    {d n k m v j fuel rounds oldsz newsz : Nat} (hshape₀ : Shape own₀ d n k) (hm : 0 < m)
    (htop : m ≤ 524288) (hfuel : 524288 < fuel) (hold : pgroundup oldsz = n * 4096)
    (hnew : lastPage newsz = (m - 1) * 4096) (h : Owned s own fl) (hfl : fl₀ = used ++ fl)
    (huses : Uses own₀ own d used) (hshape : Shape own d v j)
    (hlen : used.length = (v - n) + (j - k)) (hj : j = max k (tablesFor v)) (hn : n ≤ v)
    (hnk : n ≤ 1024 * k) (hv : v ≤ max n m) (hlow : v ≤ 524288) (hrounds : m - v + 1 < rounds) :
    Post (allocuvmLoop fuel (d * 4096) oldsz newsz rounds (v * 4096)) E
      (Grow own₀ fl₀ d n k m) s := by
  induction rounds generalizing s own fl used v j with
  | zero => omega
  | succ rounds ih =>
      -- a page that was not free before keeps its owner, also when pages are freed
      have hkeep : ∀ own' : Nat → Owner, (∀ p, p ∉ fl₀ → own' p = own₀ p) →
          ∀ p, p ∉ fl₀ → freed own' d n m p = own₀ p := by
        intro own' hown' p hp
        rw [← hown' p hp]
        exact freed_eq_of_lt fun x hx => (hshape₀.pages x).mp ⟨p, hown' p hp ▸ hx⟩
      have hoff : ∀ p, p ∉ fl₀ → own p = own₀ p := fun p hp =>
        huses.off p fun hmem => hp (by rw [hfl]; exact List.mem_append_left _ hmem)
      rw [allocuvmLoop, hnew]
      by_cases hvm : v < m
      · rw [if_pos (by omega), next_page (by omega)]
        refine post_newPage (f := fun _ => allocuvmLoop fuel (d * 4096) oldsz newsz rounds
            ((v + 1) * 4096)) (w := fun a => memset a 0 PGSIZE) h hshape (by omega)
          (show 0 < fuel by omega) (fills_memset 0) (fun hnil => ?_)
          (fun q fl' u hq hlt hu hshape' _ => ?_) (fun q t fl' u hq heq hu hshape' _ => ?_)
          fun q u hq heq hu hshape' => ?_
        · -- no memory for the page
          subst hnil
          rw [List.append_nil] at hfl
          refine post_allocuvmShort h hshape.dir hold hnew hm (by omega) htop hfuel
            fun u fl' hu => .short hu ?_ ?_ (hkeep own hoff) (fun p hp => ?_)
              (hshape.freed (by omega) hn)
          · rw [hfl, hlen, cost]
            unfold tablesFor at hj ⊢
            omega
          · rintro ⟨i, hki, hni, him, hf⟩
            rw [hfl, hlen] at hf
            unfold tablesFor at hj
            omega
          · exact freed_ofSpace (huses.on p (hfl ▸ hp))
        · -- the table is there
          refine ih hu (by rw [hfl, hq, List.append_assoc]; rfl) (huses.update (by simp [Owner.ofSpace]))
            hshape' ?_ ?_ (by omega) (by omega) (by omega) (by omega)
          · rw [List.length_append, hlen, List.length_singleton]
            omega
          · unfold tablesFor at hj ⊢
            omega
        · -- a new table
          have hqt := h.head_ne hq
          have huses' := (huses.update (q := q) (o := .page d v) (by simp [Owner.ofSpace])).update
            (q := t) (o := .tab d j) (by simp [Owner.ofSpace])
          rw [update_comm hqt] at huses'
          refine ih hu (by rw [hfl, hq, List.append_assoc, List.append_assoc]; rfl) huses' hshape'
            ?_ ?_ (by omega) (by omega) (by omega) (by omega)
          · rw [List.length_append, List.length_append, hlen, List.length_singleton,
              List.length_singleton]
            omega
          · unfold tablesFor at hj ⊢
            omega
        · -- no memory for the table: the page is lost, and the next round is the last one
          rw [hq] at hfl
          have hqmem : q ∈ fl₀ := by rw [hfl]; simp
          have hshort : TableShort fl₀.length n k m := by
            refine ⟨j, by omega, by omega, by omega, ?_⟩
            rw [hfl, List.length_append, List.length_singleton, hlen]
            omega
          have hoff' : ∀ p, p ∉ fl₀ → update own q .held p = own₀ p := by
            intro p hp
            have hpq : p ≠ q := by
              rintro rfl
              exact hp hqmem
            rw [update_of_ne hpq]
            exact hoff p hp
          have hon' : ∀ p ∈ fl₀, update own q .held p = .held ∨
              (update own q .held p).ofSpace d := by
            intro p hp
            by_cases hpq : p = q
            · rw [hpq, update_self]
              exact .inl rfl
            · rw [update_of_ne hpq]
              refine .inr (huses.on p ?_)
              rw [hfl] at hp
              simpa [hpq] using hp
          obtain ⟨rounds, rfl⟩ : ∃ r, rounds = r + 1 := ⟨rounds - 1, by omega⟩
          show Post (allocuvmLoop _ _ _ _ (rounds + 1) _) _ _ _
          rw [allocuvmLoop, hnew]
          by_cases hlast : v + 1 < m
          · have hmore : ¬ LastTableShort fl₀.length n k m := by
              unfold LastTableShort cost tablesFor
              rw [hfl, List.length_append, List.length_singleton, hlen]
              omega
            rw [if_pos (by omega), post_bind]
            refine post_kalloc hu (fun _ => ?_) fun p fl' w hfl' => by cases hfl'
            refine post_allocuvmShort hu hshape'.dir hold hnew hm (by omega) htop hfuel
              fun w fl' hw => .leak hw hshort (hkeep _ hoff') (fun p hp => ?_) hqmem ?_
                (hshape'.freed (by omega) hn) ⟨rfl, hmore⟩
            · rcases hon' p hp with hheld | hspace
              · rw [freed_eq_of_not_ofSpace (by rw [hheld]; rfl), hheld]
                exact .inr (.inl rfl)
              · exact (freed_ofSpace hspace).imp_right .inr
            · rw [freed_eq_of_not_ofSpace (by rw [update_self]; rfl), update_self]
          · have hfew : LastTableShort fl₀.length n k m := by
              unfold LastTableShort cost tablesFor
              rw [hfl, List.length_append, List.length_singleton, hlen]
              omega
            rw [if_neg (by omega), post_pure]
            exact .leak hu hshort hoff' (fun p hp => .inr (hon' p hp)) hqmem
              (update_self _ _ _) hshape' ⟨rfl, by omega, heq, hfew⟩
      · rw [if_neg (by omega), post_pure]
        refine .done h hfl ?_ huses ?_
        · rw [hlen, cost]
          unfold tablesFor at hj ⊢
          omega
        · have hvn : max n m = v := by omega
          have hjk : max k (tablesFor m) = j := by
            unfold tablesFor at hj ⊢
            omega
          rw [hvn, hjk]
          exact hshape

/-- **`allocuvm`** to a size that is not zero. -/
theorem post_allocuvm (h : Owned s own fl) {d k fuel oldsz newsz : Nat}
    (hshape : Shape own d (pagesOf oldsz) k) (hold : oldsz ≤ USERTOP) (hpos : 0 < newsz)
    (hfuel : 1048576 < fuel) {Q : Nat → Phys → Prop} (hbig : USERTOP < newsz → Q 0 s)
    (hgrow : newsz ≤ USERTOP → ∀ r u, Grow own fl d (pagesOf oldsz) k (pagesOf newsz) r u →
      Q (if r then (if newsz > oldsz then newsz else oldsz) else 0) u) :
    Post (allocuvm fuel (d * 4096) oldsz newsz) E Q s := by
  rw [allocuvm]
  by_cases htop : newsz > USERTOP
  · rw [if_pos htop, post_pure]
    exact hbig htop
  · have htop' : newsz ≤ USERTOP := by omega
    have hle := hshape.le h
    have hpages := pagesOf_le hold
    have hpages' := pagesOf_le htop'
    -- tables are only there for the pages, or left over from a larger size
    rw [if_neg htop, post_bind, pgroundup_of_le hold]
    by_cases hk : k = max k (tablesFor (pagesOf oldsz))
    · refine (post_allocuvmLoop hshape (pagesOf_pos hpos) hpages' (by omega) (pgroundup_of_le hold)
        (lastPage_of_pos htop' hpos) h (List.nil_append fl).symm ⟨fun _ _ => rfl, fun p hp => by
          cases hp⟩ hshape (by simp) hk le_rfl hle (le_max_left _ _) hpages (by omega)).mono
        (fun _ he => he) fun r u hr => ?_
      exact post_pure.mpr (hgrow htop' r u hr)
    · unfold tablesFor at hk
      omega

/-- **`allocuvm` of one page**, from `n` pages on. -/
theorem post_allocOne (h : Owned s own fl) {d n fuel : Nat} (hd : own d = .dir)
    (hnone : ∀ p, own p ≠ .page d n) (hn : n < 524288) (hfuel : 524288 < fuel)
    {Q : Nat → Phys → Prop}
    (hnil : ∀ u fl', fl = [] → Owned u (freed own d n (n + 1)) fl' → Q 0 u)
    (htab : ∀ q fl' u, fl = q :: fl' → Tabbed own d n →
      Owned u (update own q (.page d n)) fl' →
      NewPage own d q (fun _ => 0) s.mem u.mem → Q (n * 4096 + 4096) u)
    (hnew : ∀ q t fl' u, fl = q :: t :: fl' → ¬ Tabbed own d n →
      Owned u (update (update own t (.tab d (n / 1024))) q (.page d n)) fl' →
      NewPage own d q (fun _ => 0) s.mem u.mem → Q (n * 4096 + 4096) u)
    (hleak : ∀ q u, fl = [q] → ¬ Tabbed own d n → Owned u (update own q .held) [] →
      AgreeOff q s.mem u.mem → Q (n * 4096 + 4096) u) :
    Post (allocuvm fuel (d * 4096) (n * 4096) (n * 4096 + 4096)) E Q s := by
  obtain ⟨fuel, rfl⟩ : ∃ k, fuel = k + 2 := ⟨fuel - 2, by omega⟩
  have hround : pgroundup (n * 4096) = n * 4096 := by
    unfold pgroundup PGSIZE
    omega
  have hlast : lastPage (n * 4096 + 4096) = (n + 1 - 1) * 4096 := by
    unfold lastPage pgrounddown PGSIZE
    omega
  have hnext : (n * 4096 + PGSIZE) % 4294967296 = n * 4096 + 4096 := by
    unfold PGSIZE
    omega
  -- the second round ends the loop
  have hend : ∀ u, Q (n * 4096 + 4096) u →
      Post (allocuvmLoop (fuel + 2) (d * 4096) (n * 4096) (n * 4096 + 4096) (fuel + 1)
        (n * 4096 + 4096)) E (fun ok u => Post (pure (if ok = true then
          if n * 4096 + 4096 > n * 4096 then n * 4096 + 4096 else n * 4096 else 0)) E Q u) u := by
    intro u hu
    rw [allocuvmLoop, if_neg (by rw [hlast]; omega), post_pure, post_pure, if_pos rfl,
      if_pos (by omega)]
    exact hu
  rw [allocuvm, if_neg (by unfold USERTOP; omega), post_bind, hround, allocuvmLoop,
    if_pos (by rw [hlast, Nat.add_sub_cancel]), hnext]
  refine post_allocPage (f := fun _ => allocuvmLoop (fuel + 2) (d * 4096) (n * 4096)
      (n * 4096 + 4096) (fuel + 1) (n * 4096 + 4096)) (w := fun a => memset a 0 PGSIZE) h hd
    (by omega) hnone (by omega) (fills_memset 0) (fun hfl => ?_)
    (fun q fl' u hfl ht hu hpage => hend u (htab q fl' u hfl ht hu hpage))
    (fun q t fl' u hfl ht hu hpage => hend u (hnew q t fl' u hfl ht hu hpage))
    fun q u hfl ht hu hmem => hend u (hleak q u hfl ht hu hmem)
  refine post_allocuvmShort h hd hround hlast (Nat.succ_pos n) (by omega) (by omega) (by omega)
    fun u fl' hu => ?_
  rw [post_pure, if_neg Bool.false_ne_true]
  exact hnil u fl' hfl hu

/-! ## `switchuvm` -/

/-- The pages of the address space `d` have numbers below `n`. -/
def Bounded (own : Nat → Owner) (d n : Nat) : Prop := ∀ q v, own q = .page d v → v < n

theorem Bounded.mono {own' : Nat → Owner} {d n : Nat} (h : Bounded own d n)
    (hsub : ∀ q v, own' q = .page d v → own q = .page d v) : Bounded own' d n :=
  fun q v hq => h q v (hsub q v hq)

theorem Shape.bounded {d n k : Nat} (h : Shape own d n k) : Bounded own d n :=
  fun q v hq => (h.pages v).mp ⟨q, hq⟩

/-- **`switchuvm`** goes through the pages of the address space up to the first hole. -/
theorem post_switchuvm (h : Owned s own fl) {d n fuel : Nat} (hd : own d = .dir)
    (hb : Bounded own d n) (hn : n ≤ 524288) (hfuel : 524288 < fuel) (hQ : Q () s) :
    Post (switchuvm fuel (d * 4096)) E Q s := by
  have hdv := h.valid d (by rw [hd]; exact Owner.noConfusion)
  have hloop : ∀ fuel v, v ≤ n → n - v < fuel →
      Post (switchuvmLoop (d * 4096) fuel (v * 4096)) E Q s := by
    intro fuel
    induction fuel with
    | zero => intro v _ hlt; omega
    | succ fuel ih =>
        intro v hv hlt
        have hj : v % 1024 < 1024 := by omega
        have hsplit : 1024 * (v / 1024) + v % 1024 = v := by omega
        rw [switchuvmLoop, post_bind]
        refine post_walkpgdir h hd (by omega) (fun t ht => ?_) fun _ => post_pure.mpr hQ
        have hentry : le32 s.mem (t * 4096 + 4 * (v % 1024)) = entry s.mem t (v % 1024) := rfl
        simp only [post_bind, post_load]
        rw [hentry, next_page (by omega)]
        have htab := h.tab t d _ _ ht hj
        rw [hsplit] at htab
        rcases htab with ⟨q, hq, he⟩ | ⟨hno, he⟩
        · have hvn := hb q v hq
          rw [he, if_neg (by unfold pteOf; omega)]
          exact ih (v + 1) (by omega) (by omega)
        · rw [he, if_pos rfl, post_pure]
          exact hQ
  rw [switchuvm, if_neg (by omega)]
  have := hloop fuel 0 (by omega) (by omega)
  simpa using this

end Xv6.Vm

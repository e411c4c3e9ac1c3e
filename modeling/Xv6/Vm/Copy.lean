import Xv6.Vm.Space

/-! # New address spaces

Specifications of `setupkvm` and `copyuvm`, and of `growproc`. `Built` relates the owners of pages
before an address space is set up with the owners at any time while it is being filled. -/

namespace Xv6.Vm

open Lib Run

open Function (update update_apply update_idem update_of_ne update_self)

variable {s : Phys} {own own₀ : Nat → Owner} {fl fl₀ : List Nat} {E : Stop → Prop}

/-! ## `setupkvm` -/

/-- The address space `d` is new: since the owners were `own₀` and the free pages `fl₀`, pages have
only been taken for it or lost. -/
structure Built (own₀ own : Nat → Owner) (fl₀ : List Nat) (d : Nat) : Prop where
  mem : d ∈ fl₀
  off : ∀ p, p ∉ fl₀ → own p = own₀ p
  on : ∀ p ∈ fl₀, p = d ∧ own p = .dir ∨ own p = .free ∨ own p = .held ∨ (own p).ofSpace d

variable {d : Nat} {s₀ : Phys} {own' : Nat → Owner}

/-- No page belongs to an address space whose directory is not there. -/
theorem Owned.not_ofSpace (h : Owned s own fl) (hd : own d ≠ .dir) (p : Nat) :
    (own p).ofSpace d = false := by
  cases ho : own p with
  | tab d' i =>
      have hdir := (h.tabDir p d' i ho).1
      have hne : d' ≠ d := by
        rintro rfl
        exact hd hdir
      simp [Owner.ofSpace, hne]
  | page d' v =>
      obtain ⟨t, ht⟩ := h.pageTab p d' v ho
      have hdir := (h.tabDir t d' _ ht).1
      have hne : d' ≠ d := by
        rintro rfl
        exact hd hdir
      simp [Owner.ofSpace, hne]
  | _ => rfl

/-- An address space with an empty directory. -/
theorem Owned.shape_newDir (h : Owned s own fl) (hd : own d = .free) :
    Shape (update own d .dir) d 0 0 := by
  have hnone := h.not_ofSpace (d := d) (by rw [hd]; exact Owner.noConfusion)
  refine ⟨update_self _ _ _, fun v => ?_, fun i => ?_⟩
  · rw [exists_update_iff (by rw [hd]; exact Owner.noConfusion)]
    refine ⟨?_, fun hv => absurd hv (Nat.not_lt_zero v)⟩
    rintro (ho | ⟨p, hp⟩)
    · cases ho
    · have := hnone p
      rw [hp] at this
      simp [Owner.ofSpace] at this
  · rw [exists_update_iff (by rw [hd]; exact Owner.noConfusion)]
    refine ⟨?_, fun hi => absurd hi (Nat.not_lt_zero i)⟩
    rintro (ho | ⟨p, hp⟩)
    · cases ho
    · have := hnone p
      rw [hp] at this
      simp [Owner.ofSpace] at this

/-- **`setupkvm`** makes an empty address space. -/
theorem post_setupkvm (h : Owned s own fl) {Q : Option Nat → Phys → Prop} (hnone : fl = [] → Q none s)
    (hsome : ∀ d fl' u, fl = d :: fl' → Owned u (update own d .dir) fl' →
      Shape (update own d .dir) d 0 0 → Built own (update own d .dir) fl d →
      AgreeOff d s.mem u.mem → Q (some (d * 4096)) u) :
    Post setupkvm E Q s := by
  rw [setupkvm, post_bind]
  refine post_kalloc h (fun hnil => post_pure.mpr (hnone hnil)) fun d fl' u hfl hmem hu => ?_
  have hdmem : d ∈ fl := by rw [hfl]; exact .head _
  have hheld : update own d Owner.held d = .held := update_self _ _ _
  have hclear := hu.write (p := d) (by rw [hheld]; exact id)
    (agreeOff_fill (p := d) (m := u.mem) (c := 0))
  have hdir := hclear.newDir hheld fun i hi => entry_fill _ _ _ hi
  rw [update_idem] at hdir
  rw [post_bind, post_memset, post_pure]
  refine hsome d fl' _ hfl hdir (h.shape_newDir ((h.free d).mp hdmem)) ⟨hdmem, fun p hp => ?_,
    fun p hp => ?_⟩ (hmem ▸ agreeOff_fill)
  · exact update_of_ne (by rintro rfl; exact hp hdmem) _ _
  · by_cases hpd : p = d
    · exact .inl ⟨hpd, by rw [hpd, update_self]⟩
    · rw [update_of_ne hpd]
      exact .inr (.inl ((h.free p).mp hp))

/-- A page that was free is taken. -/
theorem Built.update {d p : Nat} {o : Owner} (hb : Built own₀ own fl₀ d) (hp : p ∈ fl₀)
    (ho : o = .held ∨ o.ofSpace d) : Built own₀ (update own p o) fl₀ d := by
  refine ⟨hb.mem, fun q hq => ?_, fun q hq => ?_⟩
  · rw [update_of_ne (by rintro rfl; exact hq hp)]
    exact hb.off q hq
  · by_cases hqp : q = p
    · rw [hqp, update_self]
      exact .inr (.inr ho)
    · rw [update_of_ne hqp]
      exact hb.on q hq

/-- The pages that are free while an address space is built were free before. -/
theorem Built.free_subset (h₀ : Owned s₀ own₀ fl₀) (h : Owned s own fl) (hb : Built own₀ own fl₀ d)
    {p : Nat} (hp : p ∈ fl) : p ∈ fl₀ := by
  by_contra hno
  have ho := hb.off p hno
  rw [(h.free p).mp hp] at ho
  exact hno ((h₀.free p).mpr ho.symm)

/-- When a new address space has been released, the owners are as before except for pages lost. -/
theorem Built.released_eq (h₀ : Owned s₀ own₀ fl₀) (hb : Built own₀ own fl₀ d) (p : Nat) :
    released own d p = own₀ p ∨ p ∈ fl₀ ∧ p ≠ d ∧ own p = .held ∧ released own d p = .held := by
  have hdfree := (h₀.free d).mp hb.mem
  by_cases hp : p ∈ fl₀
  · have hfree := (h₀.free p).mp hp
    by_cases hpd : p = d
    · left
      rw [released, if_pos (.inl hpd), hfree]
    · rcases hb.on p hp with ⟨hd, -⟩ | ho | ho | ho
      · exact absurd hd hpd
      · left
        rw [released, ho]
        simp [Owner.ofSpace, hpd, hfree]
      · right
        refine ⟨hp, hpd, ho, ?_⟩
        rw [released, ho]
        simp [Owner.ofSpace, hpd]
      · left
        rw [released, if_pos (.inr ho), hfree]
  · left
    have hpd : p ≠ d := by
      rintro rfl
      exact hp hb.mem
    have hnone := h₀.not_ofSpace (d := d) (by rw [hdfree]; exact Owner.noConfusion) p
    rw [released, hb.off p hp, hnone]
    simp [hpd]

/-! ## Other address spaces -/

/-- The address space `d` has the same pages and tables. -/
structure SameSpace (own own' : Nat → Owner) (d : Nat) : Prop where
  dir : own d = .dir → own' d = .dir
  page : ∀ p v, own' p = .page d v ↔ own p = .page d v
  tab : ∀ p i, own' p = .tab d i ↔ own p = .tab d i

theorem SameSpace.trans {own' own'' : Nat → Owner} (h : SameSpace own own' d)
    (h' : SameSpace own' own'' d) : SameSpace own own'' d :=
  ⟨fun hd => h'.dir (h.dir hd), fun p v => (h'.page p v).trans (h.page p v),
    fun p i => (h'.tab p i).trans (h.tab p i)⟩

theorem Shape.same {d n k : Nat} (h : Shape own d n k) (hs : SameSpace own own' d) :
    Shape own' d n k := by
  refine ⟨hs.dir h.dir, fun v => ?_, fun i => ?_⟩
  · simp only [hs.page]
    exact h.pages v
  · simp only [hs.tab]
    exact h.tabs i

/-- Changes to pages that do not belong to an address space. -/
theorem SameSpace.of_changes
    (h : ∀ p, own' p = own p ∨
      (own p).ofSpace d = false ∧ (own' p).ofSpace d = false ∧ (p = d → own p ≠ .dir)) :
    SameSpace own own' d := by
  have hpage : ∀ v, (Owner.page d v).ofSpace d = true := fun v => by simp [Owner.ofSpace]
  have htab : ∀ i, (Owner.tab d i).ofSpace d = true := fun i => by simp [Owner.ofSpace]
  refine ⟨fun hd => ?_, fun p v => ?_, fun p i => ?_⟩
  · rcases h d with he | ⟨-, -, hne⟩
    · rw [he, hd]
    · exact absurd hd (hne rfl)
  · rcases h p with he | ⟨ho, ho', -⟩
    · rw [he]
    · constructor <;> intro heq
      · rw [heq, hpage] at ho'
        cases ho'
      · rw [heq, hpage] at ho
        cases ho
  · rcases h p with he | ⟨ho, ho', -⟩
    · rw [he]
    · constructor <;> intro heq
      · rw [heq, htab] at ho'
        cases ho'
      · rw [heq, htab] at ho
        cases ho

/-- A page is taken or given back. -/
theorem SameSpace.update {d k : Nat} {o : Owner} (hk : own k = .free ∨ own k = .held)
    (ho : o = .free ∨ o = .held) : SameSpace own (update own k o) d := by
  refine .of_changes fun p => ?_
  by_cases hp : p = k
  · subst hp
    rw [update_self]
    refine .inr ⟨?_, ?_, fun _ => ?_⟩
    · rcases hk with hk | hk <;> rw [hk] <;> rfl
    · rcases ho with rfl | rfl <;> rfl
    · rcases hk with hk | hk <;> rw [hk] <;> exact Owner.noConfusion
  · exact .inl (update_of_ne hp _ _)

theorem Owner.ofSpace_ne {d d' : Nat} {o : Owner} (h : o.ofSpace d) (hne : d' ≠ d) :
    o.ofSpace d' = false := by
  cases o with
  | tab e i =>
      have he : e = d := by simpa [Owner.ofSpace] using h
      simp [Owner.ofSpace, he, hne.symm]
  | page e v =>
      have he : e = d := by simpa [Owner.ofSpace] using h
      simp [Owner.ofSpace, he, hne.symm]
  | _ => cases h

/-- A new address space leaves the others alone. -/
theorem Built.same (h₀ : Owned s₀ own₀ fl₀) {d d' : Nat} (hb : Built own₀ own fl₀ d)
    (hd : own₀ d' = .dir) : SameSpace own₀ own d' := by
  have hdfree := (h₀.free d).mp hb.mem
  have hne : d' ≠ d := by
    rintro rfl
    cases hd.symm.trans hdfree
  refine .of_changes fun p => ?_
  by_cases hp : p ∈ fl₀
  · have hfree := (h₀.free p).mp hp
    refine .inr ⟨by rw [hfree]; rfl, ?_, fun _ => by rw [hfree]; exact Owner.noConfusion⟩
    rcases hb.on p hp with ⟨-, ho⟩ | ho | ho | ho
    · rw [ho]
      rfl
    · rw [ho]
      rfl
    · rw [ho]
      rfl
    · exact Owner.ofSpace_ne ho hne
  · exact .inl (hb.off p hp)

/-- The release of an address space leaves the others alone. -/
theorem SameSpace.released {d d' : Nat} (hd : own d = .dir) (hne : d' ≠ d) :
    SameSpace own (released own d) d' := by
  refine .of_changes fun p => ?_
  unfold Vm.released
  by_cases hp : p = d
  · rw [if_pos (.inl hp), hp, hd]
    exact .inr ⟨rfl, rfl, fun heq => absurd heq.symm hne⟩
  · by_cases ho : (own p).ofSpace d
    · rw [if_pos (.inr ho)]
      refine .inr ⟨Owner.ofSpace_ne ho hne, rfl, fun _ hdir => ?_⟩
      rw [hdir] at ho
      cases ho
    · exact .inl (if_neg (by simp [hp, ho]))

/-! ## `copyuvm` -/

/-- The first `v` pages of the address space `d₀` have been copied to the address space `d`, and
nothing but pages that were free has been written to. -/
structure Copied (s₀ : Phys) (own₀ : Nat → Owner) (d₀ : Nat) (s : Phys) (own : Nat → Owner)
    (d v : Nat) : Prop where
  keeps : ∀ x, own₀ (x / 4096) ≠ .free → s.mem x = s₀.mem x
  bytes : ∀ x < v, ∀ q q', own q = .page d x → own₀ q' = .page d₀ x → ∀ k < 4096,
    s.mem (q * 4096 + k) = s₀.mem (q' * 4096 + k)

theorem fills_movePage (p : Nat) :
    Fills E (fun a => movePage a (p * 4096)) fun m k => m (p * 4096 + k) := by
  intro q u R hR
  refine post_modify.mpr (hR _ (fun x hx => if_neg ?_) fun k hk => ?_)
  · unfold PGSIZE
    omega
  · show (if _ then _ else _) = _
    rw [if_pos]
    · rw [Nat.add_sub_cancel_left]
    · unfold PGSIZE
      omega

/-- One more page has been copied. -/
theorem Copied.next {s₀ u : Phys} {d₀ d v q q' : Nat} (h₀ : Owned s₀ own₀ fl₀)
    (hb : Built own₀ own fl₀ d) (hd : own d = .dir) (hc : Copied s₀ own₀ d₀ s own d v)
    (hq' : own₀ q' = .page d₀ v)
    (hown : ∀ p x, own' p = .page d x → p = q ∧ x = v ∨ own p = .page d x)
    (hfree : ∀ p, own p ≠ .page d v)
    (hpage : NewPage own d q (fun k => s.mem (q' * 4096 + k)) s.mem u.mem) :
    Copied s₀ own₀ d₀ u own' d (v + 1) := by
  -- what was in use before is neither free nor part of the new address space
  have hrest : ∀ p, own₀ p ≠ .free → ¬ Scratch own d p := by
    intro p hp hscratch
    have hpfl : p ∉ fl₀ := fun hmem => hp ((h₀.free p).mp hmem)
    have hdfree := (h₀.free d).mp hb.mem
    have hnone := h₀.not_ofSpace (d := d) (by rw [hdfree]; exact Owner.noConfusion) p
    rcases hscratch with rfl | ho | ⟨i, ho⟩
    · exact hp hdfree
    · rw [hb.off p hpfl] at ho
      exact hp ho
    · rw [hb.off p hpfl] at ho
      rw [ho] at hnone
      simp [Owner.ofSpace] at hnone
  have hdata : ∀ p x, own p = .page d x → ¬ Scratch own d p := by
    rintro p x hp (rfl | ho | ⟨i, ho⟩)
    · cases hp.symm.trans hd
    · cases hp.symm.trans ho
    · cases hp.symm.trans ho
  have haddr : ∀ p k, k < 4096 → (p * 4096 + k) / 4096 = p := fun p k hk => by omega
  refine ⟨fun x hx => (hpage.keeps x (hrest _ hx)).trans (hc.keeps x hx),
    fun x hx p p' hp hp' k hk => ?_⟩
  rcases hown p x hp with ⟨rfl, rfl⟩ | hpx
  · rw [h₀.pageInj p' q' _ _ hp' hq', hpage.bytes k hk]
    refine hc.keeps _ ?_
    rw [haddr q' k hk, hq']
    exact Owner.noConfusion
  · have hxv : x ≠ v := by
      rintro rfl
      exact hfree p hpx
    rw [hpage.keeps _ (by rw [haddr p k hk]; exact hdata p x hpx)]
    exact hc.bytes x (by omega) p p' hpx hp' k hk

/-- **The loop of `copyuvm`**: the pages from `v` on are copied, unless memory runs out. It panics at
a hole of the address space. -/
theorem post_copyuvmLoop {d₀ d n v j fuel rounds sz : Nat} (h₀ : Owned s₀ own₀ fl₀)
    (hsrc : own₀ d₀ = .dir) (hn : n = pagesOf sz) (hsz : sz ≤ USERTOP)
    (hhole : ∀ x < n, (∀ q, own₀ q ≠ .page d₀ x) → E (.panic "copyuvm: pte should exist\n") ∧
      E (.panic "copyuvm: page not present\n")) (hfuel : 0 < fuel) (h : Owned s own fl)
    (hb : Built own₀ own fl₀ d) (hshape : Shape own d v j) (hj : j = tablesFor v)
    (hlen : fl₀.length = fl.length + 1 + v + j) (hclean : ∀ p ∈ fl₀, own p ≠ .held)
    (hcopy : Copied s₀ own₀ d₀ s own d v) (hv : v ≤ n) (hrounds : n - v < rounds)
    {Q : Bool → Phys → Prop}
    (hdone : ∀ own' fl' j' u, Owned u own' fl' → Built own₀ own' fl₀ d → Shape own' d n j' →
      Copied s₀ own₀ d₀ u own' d n → Q true u)
    (hfail : ∀ own' fl' v' j' u, Owned u own' fl' → Built own₀ own' fl₀ d → Shape own' d v' j' →
      v' ≤ n → ((∃ p ∈ fl₀, own' p = .held) ↔ (fl₀.length - 1) % 1025 = 1) →
      fl₀.length < n + tablesFor n + 1 → Q false u) :
    Post (copyuvmLoop fuel (d₀ * 4096) (d * 4096) sz rounds (v * 4096)) E Q s := by
  have hpages := pagesOf_le hsz
  induction rounds generalizing s own fl v j with
  | zero => omega
  | succ rounds ih =>
      have hlt : v * 4096 < sz ↔ v < n := by
        rw [hn]
        unfold pagesOf
        omega
      -- the source is outside the pages that were free
      have hkeep : ∀ p, own₀ p ≠ .free → own p = own₀ p := fun p hp =>
        hb.off p fun hmem => hp ((h₀.free p).mp hmem)
      have hdir₀ : own d₀ = .dir := by
        rw [hkeep d₀ (by rw [hsrc]; exact Owner.noConfusion)]
        exact hsrc
      have hsrcPage : ∀ q, own₀ q = .page d₀ v → own q = .page d₀ v := fun q hq => by
        rw [hkeep q (by rw [hq]; exact Owner.noConfusion)]
        exact hq
      have hsrcOf : ∀ q, own q = .page d₀ v → own₀ q = .page d₀ v := fun q hq =>
        (hb.same h₀ hsrc).page q v |>.mp hq
      have hnone : ∀ p, own p ≠ .page d v := fun p hp =>
        absurd ((hshape.pages v).mp ⟨p, hp⟩) (Nat.lt_irrefl v)
      have hupdate : ∀ (own₁ : Nat → Owner) (q : Nat) (o : Owner), o ≠ .held →
          (∀ p ∈ fl₀, own₁ p ≠ .held) → ∀ p ∈ fl₀, update own₁ q o p ≠ .held := by
        intro own₁ q o ho hclean p hp
        by_cases hpq : p = q
        · rw [hpq, update_self]
          exact ho
        · rw [update_of_ne hpq]
          exact hclean p hp
      rw [copyuvmLoop]
      by_cases hvn : v < n
      · have hj' : v % 1024 < 1024 := by omega
        have hsplit : 1024 * (v / 1024) + v % 1024 = v := by omega
        rw [if_pos (hlt.mpr hvn), next_page (by omega), post_bind]
        refine post_walkpgdir h hdir₀ (by omega) (fun t ht => ?_) fun hno => ?_
        · have htab := h.tab t d₀ _ _ ht hj'
          rw [hsplit] at htab
          rcases htab with ⟨q', hq', he⟩ | ⟨hno, he⟩
          · have hentry : le32 s.mem (t * 4096 + 4 * (v % 1024)) = pteOf q' := he
            have hq₀ : own₀ q' = .page d₀ v := hsrcOf q' hq'
            rw [post_bind, post_load, hentry, if_neg (by rw [pteOf_and]; decide), pteAddr_pteOf]
            refine post_newPage (w := fun a => movePage a (q' * 4096))
              (f := fun ok => if ok then
                copyuvmLoop fuel (d₀ * 4096) (d * 4096) sz rounds ((v + 1) * 4096)
                else pure false)
              h hshape (by omega) hfuel (fills_movePage q')
              (fun hnil => ?_) (fun q fl' u hfl hvj hu hshape' hpage => ?_)
              (fun q t fl' u hfl hvj hu hshape' hpage => ?_) fun q u hfl hvj hu hshape' => ?_
            · refine post_pure.mpr (hfail own fl v j s h hb hshape hv
                ⟨fun ⟨p, hp, ho⟩ => absurd ho (hclean p hp), fun hmod => ?_⟩ ?_)
              · rw [hlen, hnil, List.length_nil, hj] at hmod
                unfold tablesFor at hmod
                omega
              · rw [hlen, hnil, List.length_nil, hj]
                unfold tablesFor
                omega
            · have hqmem := hb.free_subset h₀ h (p := q) (by rw [hfl]; exact .head _)
              refine ih hu (hb.update hqmem (.inr (by simp [Owner.ofSpace]))) hshape' ?_ ?_
                (hupdate _ _ _ Owner.noConfusion hclean) ?_ (by omega) (by omega)
              · unfold tablesFor at hj ⊢
                omega
              · rw [hlen, hfl, List.length_cons]
                omega
              · refine hcopy.next h₀ hb hshape.dir hq₀ (fun p x hp => ?_) hnone hpage
                rw [update_apply] at hp
                grind
            · have hqmem := hb.free_subset h₀ h (p := q) (by rw [hfl]; exact .head _)
              have htmem := hb.free_subset h₀ h (p := t) (by rw [hfl]; simp)
              refine ih hu ((hb.update htmem (.inr (by simp [Owner.ofSpace]))).update hqmem
                (.inr (by simp [Owner.ofSpace]))) hshape' ?_ ?_
                (hupdate _ _ _ Owner.noConfusion (hupdate _ _ _ Owner.noConfusion hclean))
                ?_ (by omega) (by omega)
              · unfold tablesFor at hj ⊢
                omega
              · rw [hlen, hfl, List.length_cons, List.length_cons]
                omega
              · refine hcopy.next h₀ hb hshape.dir hq₀ (fun p x hp => ?_) hnone hpage
                rw [update_apply, update_apply] at hp
                grind
            · have hqmem := hb.free_subset h₀ h (p := q) (by rw [hfl]; exact .head _)
              refine post_pure.mpr (hfail _ _ v j u hu (hb.update hqmem (.inl rfl)) hshape' hv
                ⟨fun _ => ?_, fun _ => ⟨q, hqmem, update_self _ _ _⟩⟩ ?_)
              · rw [hlen, hfl, List.length_singleton]
                omega
              · rw [hlen, hfl, List.length_singleton]
                unfold tablesFor
                omega
          · have hentry : le32 s.mem (t * 4096 + 4 * (v % 1024)) = 0 := he
            rw [post_bind, post_load, hentry, if_pos (by decide)]
            exact post_panic.mpr (hhole v hvn fun q hq => hno q (hsrcPage q hq)).2
        · refine post_panic.mpr (hhole v hvn fun q hq => ?_).1
          obtain ⟨t, ht⟩ := h.pageTab q d₀ v (hsrcPage q hq)
          exact hno t ht
      · rw [if_neg (by rw [hlt]; exact hvn), post_pure]
        obtain rfl : v = n := by omega
        exact hdone own fl j s h hb hshape hcopy

/-- **`copyuvm`** makes a copy of an address space, or releases what it has taken. When memory runs
out for a page table, a page is lost. -/
theorem post_copyuvm {d₀ n fuel sz : Nat} (h : Owned s own fl) (hsrc : own d₀ = .dir)
    (hn : n = pagesOf sz) (hsz : sz ≤ USERTOP)
    (hhole : ∀ x < n, (∀ q, own q ≠ .page d₀ x) → E (.panic "copyuvm: pte should exist\n") ∧
      E (.panic "copyuvm: page not present\n"))
    (hfuel : 524288 < fuel) {Q : Option Nat → Phys → Prop}
    (hdone : ∀ own' fl' d j u, Owned u own' fl' → Built own own' fl d → Shape own' d n j →
      Copied s own d₀ u own' d n → Q (some (d * 4096)) u)
    (hfail : ∀ own' fl' u, Owned u own' fl' → (∀ p, own' p = own p ∨ p ∈ fl ∧ own' p = .held) →
      ((∃ p ∈ fl, own' p = .held) ↔ (fl.length - 1) % 1025 = 1) →
      fl.length < n + tablesFor n + 1 → Q none u) :
    Post (copyuvm fuel (d₀ * 4096) sz) E Q s := by
  have hpages := pagesOf_le hsz
  have hnotHeld : ∀ p ∈ fl, own p ≠ .held := by
    intro p hp ho
    cases ho.symm.trans ((h.free p).mp hp)
  rw [copyuvm, post_bind]
  refine post_setupkvm h (fun hnil => post_pure.mpr (hfail own fl s h (fun p => .inl rfl) ?_
    (by rw [hnil]; exact Nat.succ_pos _))) fun d fl' u hfl hu hshape hb hmem => ?_
  · rw [hnil]
    exact ⟨fun ⟨p, hp, _⟩ => absurd hp List.not_mem_nil, fun hmod => absurd hmod (by decide)⟩
  · have hzero : Post (copyuvmLoop fuel (d₀ * 4096) (d * 4096) sz fuel (0 * 4096)) E (fun ok u =>
        Post (if ok then pure (some (d * 4096)) else do
          freevm fuel (d * 4096)
          pure none) E Q u) u := by
      refine post_copyuvmLoop h hsrc hn hsz hhole (by omega) hu hb hshape rfl
        (by rw [hfl, List.length_cons]) (fun p hp => ?_) ⟨fun x hx => ?_, fun x hx => ?_⟩
        (by omega) (by omega)
        (fun own' fl' j' w hw hb' hshape' hcopy =>
          post_pure.mpr (hdone own' fl' d j' w hw hb' hshape' hcopy))
        fun own' fl' v' j' w hw hb' hshape' hv' hleak hshort => ?_
      · by_cases hpd : p = d
        · rw [hpd, update_self]
          exact Owner.noConfusion
        · rw [update_of_ne hpd]
          exact hnotHeld p hp
      · refine hmem x fun heq => hx ?_
        rw [heq]
        exact (h.free d).mp hb.mem
      · exact absurd hx (Nat.not_lt_zero x)
      · rw [if_neg (by decide), post_bind]
        refine post_freevm hw hshape'.dir (fun q v hq => ?_) hfuel fun x fl'' hx _ => ?_
        · have := (hshape'.pages v).mp ⟨q, hq⟩
          omega
        · refine post_pure.mpr (hfail _ fl'' x hx (fun p => ?_) ?_ hshort)
          · rcases hb'.released_eq h p with he | ⟨hp, -, -, he⟩
            · exact .inl he
            · exact .inr ⟨hp, he⟩
          · rw [← hleak]
            constructor
            · rintro ⟨p, hp, ho⟩
              rcases hb'.released_eq h p with he | ⟨-, -, hheld, -⟩
              · exact absurd (he.symm.trans ho) (hnotHeld p hp)
              · exact ⟨p, hp, hheld⟩
            · rintro ⟨p, hp, ho⟩
              refine ⟨p, hp, ?_⟩
              have hpd : p ≠ d := by
                rintro rfl
                cases ho.symm.trans hshape'.dir
              rw [released, ho]
              simp [Owner.ofSpace, hpd]
    rw [post_bind]
    simpa using hzero

end Xv6.Vm

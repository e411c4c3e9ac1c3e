import Xv6.Vm.Copy
import Xv6.Vm.Rounds

/-! # Address spaces with holes

A process that shrinks its memory to nothing keeps its size and loses its pages, so that address
spaces may have holes. The functions of `vm.c` on such an address space change only pages that were
free or belonged to it; `Touch` is that relation between the owners before and after. -/

namespace Xv6.Vm

open Lib Run

open Function (update update_of_ne update_self)

variable {s : Phys} {own own' own'' : Nat → Owner} {fl : List Nat} {E : Stop → Prop} {d : Nat}

/-! ## What may change -/

/-- Only pages that were free or belonged to the address space `d` have changed their owner, and
they have become free, belong to `d` or are lost. -/
def Touch (own own' : Nat → Owner) (d : Nat) : Prop :=
  ∀ p, own' p = own p ∨ (own p = .free ∨ (own p).ofSpace d) ∧
    (own' p = .free ∨ own' p = .held ∨ (own' p).ofSpace d)

theorem Touch.refl (own : Nat → Owner) (d : Nat) : Touch own own d := fun _ => .inl rfl

theorem Touch.trans (h : Touch own own' d) (h' : Touch own' own'' d) : Touch own own'' d := by
  intro p
  rcases h' p with he' | ⟨hb', ha'⟩
  · rw [he']
    exact h p
  · rcases h p with he | ⟨hb, -⟩
    · rw [he] at hb'
      exact .inr ⟨hb', ha'⟩
    · exact .inr ⟨hb, ha'⟩

/-- One page changes. -/
theorem Touch.update {p : Nat} {o : Owner} (hp : own p = .free ∨ (own p).ofSpace d)
    (ho : o = .free ∨ o = .held ∨ o.ofSpace d) : Touch own (update own p o) d := by
  intro q
  by_cases hq : q = p
  · rw [hq, update_self]
    exact .inr ⟨hp, ho⟩
  · rw [update_of_ne hq]
    exact .inl rfl

theorem Touch.freed (own : Nat → Owner) (d lo hi : Nat) : Touch own (freed own d lo hi) d := by
  intro p
  unfold Vm.freed
  split
  · rename_i hin
    refine .inr ⟨.inr ?_, .inl rfl⟩
    cases ho : own p with
    | page d' v =>
        rw [ho] at hin
        obtain ⟨rfl, -⟩ := of_decide_eq_true hin
        simp [Owner.ofSpace]
    | _ =>
        rw [ho] at hin
        cases hin
  · exact .inl rfl

theorem Touch.held (h : Touch own own' d) {p : Nat} (hp : own p = .held) : own' p = .held := by
  rcases h p with he | ⟨hb, -⟩
  · rw [he, hp]
  · rw [hp] at hb
    rcases hb with hb | hb <;> cases hb

theorem Touch.dir (h : Touch own own' d) {p : Nat} (hp : own p = .dir) : own' p = .dir := by
  rcases h p with he | ⟨hb, -⟩
  · rw [he, hp]
  · rw [hp] at hb
    rcases hb with hb | hb <;> cases hb

theorem Touch.none_iff (h : Touch own own' d) (p : Nat) : own' p = .none ↔ own p = .none := by
  rcases h p with he | ⟨hb, ha⟩
  · rw [he]
  · constructor <;> intro hn
    · rw [hn] at ha
      rcases ha with ha | ha | ha <;> cases ha
    · rw [hn] at hb
      rcases hb with hb | hb <;> cases hb

/-- Other address spaces stay as they are. -/
theorem Touch.same (h : Touch own own' d) {d' : Nat} (hne : d' ≠ d) : SameSpace own own' d' := by
  refine .of_changes fun p => ?_
  rcases h p with he | ⟨hb, ha⟩
  · exact .inl he
  · refine .inr ⟨?_, ?_, fun _ hdir => ?_⟩
    · rcases hb with hb | hb
      · rw [hb]
        rfl
      · exact Owner.ofSpace_ne hb hne
    · rcases ha with ha | ha | ha
      · rw [ha]
        rfl
      · rw [ha]
        rfl
      · exact Owner.ofSpace_ne ha hne
    · rw [hdir] at hb
      rcases hb with hb | hb <;> cases hb

/-! ## `deallocuvm` -/

/-- A loop of `deallocuvm` over any range, also one that does not end. -/
theorem post_deallocuvmLoop_touch (h : Owned s own fl) (hd : own d = .dir) {last fuel v : Nat}
    (hv : v < 1048576) (hloop : E .loop) {Q : Unit → Phys → Prop}
    (hQ : last < 4294963200 → ∀ u own' fl', Owned u own' fl' → Touch own own' d →
      (∀ q v, own' q = .page d v → own q = .page d v) → Q () u) :
    Post (deallocuvmLoop (d * 4096) last fuel (v * 4096)) E Q s := by
  induction fuel generalizing s own fl v with
  | zero => exact post_stop.mpr hloop
  | succ fuel ih =>
      rw [deallocuvmLoop]
      split
      · rw [post_bind]
        have hnext : (v * 4096 + PGSIZE) % 4294967296 = ((v + 1) % 1048576) * 4096 := by
          unfold PGSIZE
          omega
        rw [hnext]
        have hv' : (v + 1) % 1048576 < 1048576 := Nat.mod_lt _ (by decide)
        refine post_deallocPage h hd hv (fun q u hq hu _ => ?_) fun hno => ?_
        · have hspace : (own q).ofSpace d := by rw [hq]; simp [Owner.ofSpace]
          have htouch : Touch own (update own q .free) d :=
            .update (.inr hspace) (.inl rfl)
          refine ih hu (htouch.dir hd) hv' fun hlast w own' fl' hw ht hpages => ?_
          refine hQ hlast w own' fl' hw (htouch.trans ht) fun p x hp => ?_
          have hp' := hpages p x hp
          by_cases hpq : p = q
          · rw [hpq, update_self] at hp'
            cases hp'
          · rwa [update_of_ne hpq] at hp'
        · exact ih h hd hv' hQ
      · rename_i hlast
        exact post_pure.mpr (hQ (by omega) s own fl h (.refl own d) fun _ _ hp => hp)

/-! ## `allocuvm` -/

/-- A page that is mapped already makes `mappages` panic. -/
theorem post_mappages_remap (h : Owned s own fl) {v q pa perm fuel : Nat} (hd : own d = .dir)
    (hv : v < 1048576) (hq : own q = .page d v) (hfuel : 0 < fuel) (hE : E (.panic "remap"))
    {Q : Bool → Phys → Prop} : Post (mappages fuel (d * 4096) (v * 4096) PGSIZE pa perm) E Q s := by
  obtain ⟨fuel, rfl⟩ : ∃ n, fuel = n + 1 := ⟨fuel - 1, by omega⟩
  have hla : pgrounddown (v * 4096) = v * 4096 := by
    unfold pgrounddown PGSIZE
    omega
  have hj : v % 1024 < 1024 := by omega
  have hsplit : 1024 * (v / 1024) + v % 1024 = v := by omega
  obtain ⟨t, ht⟩ := h.pageTab q d v hq
  have hdir : le32 s.mem (d * 4096 + 4 * (v / 1024)) = entry s.mem d (v / 1024) := rfl
  have htab : le32 s.mem (t * 4096 + 4 * (v % 1024)) = entry s.mem t (v % 1024) := rfl
  rw [mappages, hla, mappagesLoop, post_bind, walkpgdir, post_bind, post_load, pdx_page hv,
    ptx_page, hdir]
  rcases h.dir d (v / 1024) hd (by omega) with ⟨t', ht', he⟩ | ⟨hno, -⟩
  · obtain rfl := h.tabInj t t' d _ ht ht'
    rw [he, if_pos (by rw [pteOf_and]; decide), pteAddr_pteOf, post_pure]
    have hentry := h.tab t d _ _ ht hj
    rw [hsplit] at hentry
    rcases hentry with ⟨q', -, he'⟩ | ⟨hno, -⟩
    · simp only [post_bind, post_load]
      rw [htab, he', if_pos (by rw [pteOf_and]; decide), post_panic]
      exact hE
    · exact absurd hq (hno q)
  · exact absurd ht (hno t)

/-- How the owners stand in the loop of `allocuvm` at page `v`, having started at page `lo` with the
owners `own₀` and the free pages `fl₀`. -/
structure Filling (own₀ own : Nat → Owner) (fl₀ fl : List Nat) (d lo v : Nat) : Prop where
  off : ∀ p, p ∉ fl₀ → own p = own₀ p
  on : ∀ p ∈ fl₀, own p = .free ∨ own p = .held ∨ (∃ i, own p = .tab d i) ∨
    ∃ x, own p = .page d x ∧ lo ≤ x ∧ x < v
  /-- As long as there has been a table for every page, only pages have been allocated. -/
  clean : (∀ i < v - lo, Tabbed own₀ d (lo + i)) →
    fl₀.length = fl.length + (v - lo) ∧ ∀ p ∈ fl₀, own p = .free ∨ ∃ x, own p = .page d x
  /-- Otherwise a page has been used for a table or is lost. -/
  spent : (∃ i < v - lo, ¬ Tabbed own₀ d (lo + i)) →
    fl.length + (v - lo) ≤ fl₀.length ∧ ∃ p ∈ fl₀, own p = .held ∨ ∃ i, own p = .tab d i

section Filling

variable {s₀ : Phys} {own₀ : Nat → Owner} {fl₀ : List Nat} {lo v : Nat}

section

variable (h₀ : Owned s₀ own₀ fl₀)

include h₀

theorem Filling.start : Filling own₀ own₀ fl₀ fl₀ d lo lo := by
  refine ⟨fun _ _ => rfl, fun p hp => .inl ((h₀.free p).mp hp), fun _ => ⟨by omega, fun p hp => ?_⟩,
    fun ⟨_, hi, _⟩ => absurd hi (by omega)⟩
  exact .inl ((h₀.free p).mp hp)

theorem Filling.touch (h : Filling own₀ own fl₀ fl d lo v) : Touch own₀ own d := by
  intro p
  by_cases hp : p ∈ fl₀
  · refine .inr ⟨.inl ((h₀.free p).mp hp), ?_⟩
    rcases h.on p hp with ho | ho | ⟨i, ho⟩ | ⟨x, ho, -⟩
    · exact .inl ho
    · exact .inr (.inl ho)
    · exact .inr (.inr (by rw [ho]; simp [Owner.ofSpace]))
    · exact .inr (.inr (by rw [ho]; simp [Owner.ofSpace]))
  · exact .inl (h.off p hp)

/-- Pages that are free now were free at the start. -/
theorem Filling.free_subset (h : Owned s own fl)
    (hf : Filling own₀ own fl₀ fl d lo v) {p : Nat} (hp : p ∈ fl) : p ∈ fl₀ := by
  by_contra hno
  have ho := hf.off p hno
  rw [(h.free p).mp hp] at ho
  exact hno ((h₀.free p).mpr ho.symm)

theorem Filling.tabbed (h : Filling own₀ own fl₀ fl d lo v) {x : Nat}
    (hx : Tabbed own₀ d x) : Tabbed own d x := by
  obtain ⟨t, ht⟩ := hx
  refine ⟨t, ?_⟩
  rw [h.off t fun hmem => ?_]
  · exact ht
  · cases ht.symm.trans ((h₀.free t).mp hmem)

end

/-- As long as only pages have been allocated, there are no new tables. -/
theorem Filling.tabbed_of_clean (h : Filling own₀ own fl₀ fl d lo v)
    (hclean : ∀ i < v - lo, Tabbed own₀ d (lo + i)) {x : Nat} (hx : Tabbed own d x) :
    Tabbed own₀ d x := by
  obtain ⟨t, ht⟩ := hx
  refine ⟨t, ?_⟩
  rw [← h.off t fun hmem => ?_]
  · exact ht
  · rcases (h.clean hclean).2 t hmem with ho | ⟨x, ho⟩ <;> cases ho.symm.trans ht

/-- The tables for the pages up to `v`, and the one for `v`. -/
theorem forall_tabbed_succ (hlo : lo ≤ v) :
    (∀ i < v + 1 - lo, Tabbed own₀ d (lo + i)) ↔
      (∀ i < v - lo, Tabbed own₀ d (lo + i)) ∧ Tabbed own₀ d v := by
  constructor
  · intro h
    refine ⟨fun i hi => h i (by omega), ?_⟩
    have := h (v - lo) (by omega)
    rwa [show lo + (v - lo) = v by omega] at this
  · rintro ⟨h, hv⟩ i hi
    by_cases hiv : i < v - lo
    · exact h i hiv
    · rwa [show lo + i = v by omega]

theorem not_forall_tabbed {n : Nat} :
    (∃ i < n, ¬ Tabbed own₀ d (lo + i)) ↔ ¬ ∀ i < n, Tabbed own₀ d (lo + i) := by
  push Not
  rfl

/-- One more round: pages that were free have been taken. -/
theorem Filling.next {own' : Nat → Owner} {fl' : List Nat} (h : Filling own₀ own fl₀ fl d lo v)
    (hlo : lo ≤ v) (hoff : ∀ p, p ∉ fl₀ → own' p = own p)
    (hon : ∀ p ∈ fl₀, own' p = own p ∨ own' p = .held ∨ (∃ i, own' p = .tab d i) ∨
      own' p = .page d v)
    (hkeep : ∀ p, own p = .held ∨ (∃ i, own p = .tab d i) → own' p = own p)
    (hclean : (∀ i < v - lo, Tabbed own₀ d (lo + i)) → Tabbed own₀ d v →
      fl.length = fl'.length + 1 ∧ ∀ p ∈ fl₀, own' p = own p ∨ own' p = .page d v)
    (hlen : fl'.length + 1 ≤ fl.length)
    (hspent : (∀ i < v - lo, Tabbed own₀ d (lo + i)) → ¬ Tabbed own₀ d v →
      ∃ p ∈ fl₀, own' p = .held ∨ ∃ i, own' p = .tab d i) :
    Filling own₀ own' fl₀ fl' d lo (v + 1) := by
  refine ⟨fun p hp => (hoff p hp).trans (h.off p hp), fun p hp => ?_, fun hall => ?_, fun hex => ?_⟩
  · rcases hon p hp with ho | ho | ho | ho
    · rw [ho]
      rcases h.on p hp with h' | h' | h' | ⟨x, h', hx⟩
      · exact .inl h'
      · exact .inr (.inl h')
      · exact .inr (.inr (.inl h'))
      · exact .inr (.inr (.inr ⟨x, h', by omega⟩))
    · exact .inr (.inl ho)
    · exact .inr (.inr (.inl ho))
    · exact .inr (.inr (.inr ⟨v, ho, by omega⟩))
  · obtain ⟨hold, hv⟩ := (forall_tabbed_succ hlo).mp hall
    obtain ⟨hlen', hpages⟩ := h.clean hold
    obtain ⟨hfl, hnew⟩ := hclean hold hv
    refine ⟨by omega, fun p hp => ?_⟩
    rcases hnew p hp with ho | ho
    · rw [ho]
      exact hpages p hp
    · exact .inr ⟨v, ho⟩
  · by_cases hold : ∀ i < v - lo, Tabbed own₀ d (lo + i)
    · have hv : ¬ Tabbed own₀ d v := fun hv =>
        not_forall_tabbed.mp hex ((forall_tabbed_succ hlo).mpr ⟨hold, hv⟩)
      have := (h.clean hold).1
      exact ⟨by omega, hspent hold hv⟩
    · obtain ⟨hlen', p, hp, ho⟩ := h.spent (not_forall_tabbed.mpr hold)
      refine ⟨by omega, p, hp, ?_⟩
      rw [hkeep p ho]
      exact ho

/-- What is left when the pages allocated are freed again. -/
theorem Filling.freed_eq (h₀ : Owned s₀ own₀ fl₀) (hb : Bounded own₀ d lo) {m : Nat}
    (h : Filling own₀ own fl₀ [] d lo v) (hvm : v ≤ m) :
    Touch own₀ (freed own d lo m) d ∧
      (∀ q x, freed own d lo m q = .page d x ↔ own₀ q = .page d x) ∧
      ((∀ i < fl₀.length, Tabbed own₀ d (lo + i)) → freed own d lo m = own₀) ∧
      ((∃ i < fl₀.length, ¬ Tabbed own₀ d (lo + i)) → ∃ p ∈ fl₀, freed own d lo m p ≠ .free) := by
  have hoff : ∀ p, p ∉ fl₀ → freed own d lo m p = own₀ p := by
    intro p hp
    rw [← h.off p hp]
    exact freed_eq_of_lt fun x hx => hb p x (h.off p hp ▸ hx)
  have hpage : ∀ p x, own p = .page d x → lo ≤ x → x < v → freed own d lo m p = .free := by
    intro p x hp hx hxv
    rw [freed, hp, if_pos]
    exact decide_eq_true ⟨rfl, hx, by omega⟩
  have hother : ∀ p, own p = .free ∨ own p = .held ∨ (∃ i, own p = .tab d i) →
      freed own d lo m p = own p := by
    rintro p (ho | ho | ⟨i, ho⟩) <;> rw [freed, ho] <;> rfl
  have hnone : ∀ p ∈ fl₀, ∀ x, freed own d lo m p ≠ .page d x := by
    intro p hp x hx
    rcases h.on p hp with ho | ho | ⟨i, ho⟩ | ⟨x, ho, hge, hlt⟩
    · rw [hother p (.inl ho), ho] at hx
      cases hx
    · rw [hother p (.inr (.inl ho)), ho] at hx
      cases hx
    · rw [hother p (.inr (.inr ⟨i, ho⟩)), ho] at hx
      cases hx
    · rw [hpage p x ho hge hlt] at hx
      cases hx
  refine ⟨(h.touch h₀).trans (.freed own d lo m), fun q x => ?_, fun hall => ?_, fun hex => ?_⟩
  · by_cases hq : q ∈ fl₀
    · refine ⟨fun hx => absurd hx (hnone q hq x), fun hx => ?_⟩
      cases hx.symm.trans ((h₀.free q).mp hq)
    · rw [hoff q hq]
  · have hold : ∀ i < v - lo, Tabbed own₀ d (lo + i) := by
      by_contra hno
      obtain ⟨hlen, -⟩ := h.spent (not_forall_tabbed.mpr hno)
      exact hno fun i hi => hall i (by omega)
    funext p
    by_cases hp : p ∈ fl₀
    · rw [(h₀.free p).mp hp]
      rcases (h.clean hold).2 p hp with ho | ⟨x, ho⟩
      · rw [hother p (.inl ho), ho]
      · rcases h.on p hp with h' | h' | ⟨i, h'⟩ | ⟨x', h', hge, hlt⟩
        · cases ho.symm.trans h'
        · cases ho.symm.trans h'
        · cases ho.symm.trans h'
        · exact hpage p x' h' hge hlt
    · exact hoff p hp
  · have hold : ¬ ∀ i < v - lo, Tabbed own₀ d (lo + i) := by
      intro hold
      have hlen := (h.clean hold).1
      rw [List.length_nil, Nat.zero_add] at hlen
      rw [hlen] at hex
      exact not_forall_tabbed.mp hex hold
    obtain ⟨-, p, hp, ho⟩ := h.spent (not_forall_tabbed.mpr hold)
    refine ⟨p, hp, ?_⟩
    rw [hother p (.inr ho)]
    rcases ho with ho | ⟨i, ho⟩ <;> rw [ho] <;> exact Owner.noConfusion

/-- **The loop of `allocuvm`** at page `v`, having started at page `lo`. -/
theorem post_allocuvmLoop_filling {m fuel rounds oldsz newsz : Nat} (h₀ : Owned s₀ own₀ fl₀)
    (hd : own₀ d = .dir) (hb : Bounded own₀ d lo) (hm : 0 < m) (htop : m ≤ 524288)
    (hlow : lo ≤ 524288) (hfuel : 524288 < fuel) (hold : pgroundup oldsz = lo * 4096)
    (hnew : lastPage newsz = (m - 1) * 4096) (h : Owned s own fl)
    (hf : Filling own₀ own fl₀ fl d lo v) (hlo : lo ≤ v) (hv : v ≤ max lo m)
    (hrounds : m - v < rounds) {Q : Bool → Phys → Prop}
    (hdone : ∀ own' fl' u, Owned u own' fl' → Touch own₀ own' d → Bounded own' d (max lo m) →
      Q true u)
    (hfail : ∀ own' fl' u, Owned u own' fl' → Touch own₀ own' d →
      (∀ q x, own' q = .page d x ↔ own₀ q = .page d x) →
      ((∀ i < fl₀.length, Tabbed own₀ d (lo + i)) → own' = own₀) →
      ((∃ i < fl₀.length, ¬ Tabbed own₀ d (lo + i)) → ∃ p ∈ fl₀, own' p ≠ .free) → Q false u) :
    Post (allocuvmLoop fuel (d * 4096) oldsz newsz rounds (v * 4096)) E Q s := by
  induction rounds generalizing s own fl v with
  | zero => omega
  | succ rounds ih =>
      have hd' : own d = .dir := (hf.touch h₀).dir hd
      rw [allocuvmLoop, hnew]
      by_cases hvm : v < m
      · rw [if_pos (by omega), next_page (by omega)]
        have hfree : ∀ p, own p ≠ .page d v := by
          intro p hp
          by_cases hmem : p ∈ fl₀
          · rcases hf.on p hmem with ho | ho | ⟨i, ho⟩ | ⟨x, ho, -, hlt⟩
            · cases ho.symm.trans hp
            · cases ho.symm.trans hp
            · cases ho.symm.trans hp
            · have := (Owner.page.inj (ho.symm.trans hp)).2
              omega
          · rw [hf.off p hmem] at hp
            have := hb p v hp
            omega
        have hnoheld : ∀ q ∈ fl, ∀ p, own p = .held ∨ (∃ i, own p = .tab d i) → p ≠ q := by
          rintro q hq p ho rfl
          rw [(h.free p).mp hq] at ho
          rcases ho with ho | ⟨i, ho⟩ <;> cases ho
        refine post_allocPage (f := fun _ => allocuvmLoop fuel (d * 4096) oldsz newsz rounds
            ((v + 1) * 4096)) (w := fun a => memset a 0 PGSIZE) h hd' (by omega) hfree
          (by omega) (fills_memset 0) (fun hnil => ?_)
          (fun q fl' u hq ht hu _ => ?_) (fun q t fl' u hq hno hu _ => ?_) fun q u hq hno hu _ => ?_
        · -- no memory for the page
          subst hnil
          obtain ⟨htouch, hpages, hclean, hspent⟩ := hf.freed_eq h₀ hb (m := m) (by omega)
          exact post_allocuvmShort h hd' hold hnew hm (by omega) htop hfuel
            fun u fl' hu => hfail _ fl' u hu htouch hpages hclean hspent
        · -- the table is there
          have hqmem : q ∈ fl := by rw [hq]; exact .head _
          have hlen : fl.length = fl'.length + 1 := by rw [hq, List.length_cons]
          have hone : ∀ p, update own q (.page d v) p = own p ∨
              update own q (.page d v) p = .page d v := by
            intro p
            by_cases hpq : p = q
            · rw [hpq, update_self]
              exact .inr rfl
            · rw [update_of_ne hpq]
              exact .inl rfl
          refine ih hu (hf.next hlo (fun p hp => ?_) (fun p _ => ?_) (fun p ho => ?_)
            (fun _ _ => ⟨hlen, fun p _ => hone p⟩) hlen.ge fun hall hv => ?_) (by omega) (by omega)
            (by omega)
          · rw [update_of_ne]
            rintro rfl
            exact hp (hf.free_subset h₀ h hqmem)
          · exact (hone p).imp_right fun ho => .inr (.inr ho)
          · rw [update_of_ne (hnoheld q hqmem p ho)]
          · exact absurd (hf.tabbed_of_clean hall ht) hv
        · -- a new table
          have hqmem : q ∈ fl := by rw [hq]; exact .head _
          have htmem : t ∈ fl := by rw [hq]; simp
          have hqt := h.head_ne hq
          have hlen : fl.length = fl'.length + 2 := by rw [hq, List.length_cons, List.length_cons]
          have hother : ∀ p, p ≠ q → p ≠ t →
              update (update own t (.tab d (v / 1024))) q (.page d v) p = own p := by
            intro p hpq hpt
            rw [update_of_ne hpq, update_of_ne hpt]
          refine ih hu (hf.next hlo (fun p hp => hother p ?_ ?_) (fun p _ => ?_) (fun p ho => ?_)
            (fun _ hv => absurd (hf.tabbed h₀ hv) hno) (by omega) fun _ _ => ?_) (by omega) (by omega)
            (by omega)
          · rintro rfl
            exact hp (hf.free_subset h₀ h hqmem)
          · rintro rfl
            exact hp (hf.free_subset h₀ h htmem)
          · by_cases hpq : p = q
            · rw [hpq, update_self]
              exact .inr (.inr (.inr rfl))
            · by_cases hpt : p = t
              · rw [hpt, update_of_ne hqt.symm, update_self]
                exact .inr (.inr (.inl ⟨_, rfl⟩))
              · exact .inl (hother p hpq hpt)
          · exact hother p (hnoheld q hqmem p ho) (hnoheld t htmem p ho)
          · refine ⟨t, hf.free_subset h₀ h htmem, .inr ⟨v / 1024, ?_⟩⟩
            rw [update_of_ne hqt.symm, update_self]
        · -- no memory for the table
          have hqmem : q ∈ fl := by rw [hq]; exact .head _
          refine ih hu (hf.next hlo (fun p hp => ?_) (fun p _ => ?_) (fun p ho => ?_)
            (fun _ hv => absurd (hf.tabbed h₀ hv) hno) (by rw [hq]; rfl) fun _ _ => ?_) (by omega)
            (by omega) (by omega)
          · rw [update_of_ne]
            rintro rfl
            exact hp (hf.free_subset h₀ h hqmem)
          · by_cases hpq : p = q
            · rw [hpq, update_self]
              exact .inr (.inl rfl)
            · rw [update_of_ne hpq]
              exact .inl rfl
          · rw [update_of_ne (hnoheld q hqmem p ho)]
          · exact ⟨q, hf.free_subset h₀ h hqmem, .inl (update_self _ _ _)⟩
      · rw [if_neg (by omega), post_pure]
        refine hdone own fl s h (hf.touch h₀) fun q x hq => ?_
        by_cases hmem : q ∈ fl₀
        · rcases hf.on q hmem with ho | ho | ⟨i, ho⟩ | ⟨x', ho, -, hlt⟩
          · cases ho.symm.trans hq
          · cases ho.symm.trans hq
          · cases ho.symm.trans hq
          · have := (Owner.page.inj (ho.symm.trans hq)).2
            omega
        · rw [hf.off q hmem] at hq
          have := hb q x hq
          omega

end Filling

/-- **`allocuvm`** on any address space, to a size that is not zero. -/
theorem post_allocuvm_touch (h : Owned s own fl) (hd : own d = .dir) {fuel oldsz newsz : Nat}
    (hb : Bounded own d (pagesOf oldsz)) (hold : oldsz ≤ USERTOP) (hpos : 0 < newsz)
    (hfuel : 524288 < fuel) {Q : Nat → Phys → Prop} (hbig : USERTOP < newsz → Q 0 s)
    (hdone : newsz ≤ USERTOP → ∀ own' fl' u, Owned u own' fl' → Touch own own' d →
      Bounded own' d (pagesOf (max oldsz newsz)) → Q (max oldsz newsz) u)
    (hfail : newsz ≤ USERTOP → ∀ own' fl' u, Owned u own' fl' → Touch own own' d →
      (∀ q x, own' q = .page d x ↔ own q = .page d x) →
      ((∀ i < fl.length, Tabbed own d (pagesOf oldsz + i)) → own' = own) →
      ((∃ i < fl.length, ¬ Tabbed own d (pagesOf oldsz + i)) → ∃ p ∈ fl, own' p ≠ .free) → Q 0 u) :
    Post (allocuvm fuel (d * 4096) oldsz newsz) E Q s := by
  rw [allocuvm]
  by_cases htop : newsz > USERTOP
  · rw [if_pos htop, post_pure]
    exact hbig htop
  · have htop' : newsz ≤ USERTOP := by omega
    have hpages := pagesOf_le hold
    have hpages' := pagesOf_le htop'
    have hmax : max (pagesOf oldsz) (pagesOf newsz) = pagesOf (max oldsz newsz) := by
      unfold pagesOf
      omega
    have hval : (if newsz > oldsz then newsz else oldsz) = max oldsz newsz := by
      split <;> omega
    rw [if_neg htop, post_bind, pgroundup_of_le hold]
    refine post_allocuvmLoop_filling h hd hb (pagesOf_pos hpos) hpages' hpages hfuel
      (pgroundup_of_le hold) (lastPage_of_pos htop' hpos) h (.start h) le_rfl (le_max_left _ _)
      (by omega) (fun own' fl' u hu ht hb' => ?_) fun own' fl' u hu ht hp hc hsp => ?_
    · rw [post_pure, if_pos rfl, hval]
      rw [hmax] at hb'
      exact hdone htop' own' fl' u hu ht hb'
    · exact post_pure.mpr (hfail htop' own' fl' u hu ht hp hc hsp)

/-- `deallocuvm` from the size zero frees pages forever. -/
theorem post_deallocuvm_zero (h : Owned s own fl) (hd : own d = .dir) {fuel newsz : Nat}
    (hloop : E .loop) {Q : Nat → Phys → Prop} : Post (deallocuvm fuel (d * 4096) 0 newsz) E Q s := by
  have hup : pgroundup newsz = pgroundup newsz / 4096 * 4096 ∧ pgroundup newsz / 4096 < 1048576 := by
    unfold pgroundup PGSIZE
    omega
  rw [deallocuvm, post_bind, hup.1]
  exact post_deallocuvmLoop_touch h hd hup.2 hloop fun hlast => absurd hlast (by decide)

/-- The loop of `allocuvm` to the size zero takes all memory and then frees pages forever. -/
theorem post_allocuvmLoop_zero (h : Owned s own fl) (hd : own d = .dir) {fuel rounds oldsz v : Nat}
    (hv : v < 1048576) (hfuel : 0 < fuel) (hloop : E .loop) (hremap : E (.panic "remap"))
    {Q : Bool → Phys → Prop} :
    Post (allocuvmLoop fuel (d * 4096) oldsz 0 rounds (v * 4096)) E Q s := by
  induction rounds generalizing s own fl v with
  | zero => exact post_stop.mpr hloop
  | succ rounds ih =>
      have hlast : lastPage 0 = 4294963200 := rfl
      have hnext : (v * 4096 + PGSIZE) % 4294967296 = ((v + 1) % 1048576) * 4096 := by
        unfold PGSIZE
        omega
      have hv' : (v + 1) % 1048576 < 1048576 := Nat.mod_lt _ (by decide)
      have hshort : Post (do
          let _ ← deallocuvm fuel (d * 4096) 0 oldsz
          pure false) E Q s := by
        rw [post_bind]
        exact post_deallocuvm_zero h hd hloop
      have hopen : ∀ q ∈ fl, own q = .free ∨ (own q).ofSpace d := fun q hq =>
        .inl ((h.free q).mp hq)
      rw [allocuvmLoop, hlast, if_pos (by omega), hnext]
      by_cases hpage : ∃ q, own q = .page d v
      · obtain ⟨q, hq⟩ := hpage
        rw [post_bind]
        refine post_kalloc h (fun _ => hshort) fun p fl' u hfl _ hu => ?_
        have hpfree : own p = .free := h.head_free hfl
        have hqp : q ≠ p := by
          rintro rfl
          cases hq.symm.trans hpfree
        have htouch : Touch own (update own p .held) d :=
          .update (.inl hpfree) (.inr (.inl rfl))
        have hclear := hu.write (p := p) (by rw [update_self]; exact id)
          (agreeOff_fill (p := p) (m := u.mem) (c := 0))
        rw [post_bind, post_memset, post_bind]
        exact post_mappages_remap hclear (htouch.dir hd) hv
          (by rw [update_of_ne hqp]; exact hq) hfuel hremap
      · refine post_allocPage (f := fun _ => allocuvmLoop fuel (d * 4096) oldsz 0 rounds
            ((v + 1) % 1048576 * 4096)) (w := fun a => memset a 0 PGSIZE) h hd hv
          (fun p hp => hpage ⟨p, hp⟩) hfuel (fills_memset 0) (fun _ => hshort)
          (fun q fl' u hq _ hu _ => ?_) (fun q t fl' u hq _ hu _ => ?_) fun q u hq _ hu _ => ?_
        · have hqmem : q ∈ fl := by rw [hq]; exact .head _
          exact ih hu ((Touch.update (hopen q hqmem) (.inr (.inr (by simp [Owner.ofSpace])))).dir
            hd) hv'
        · have hqmem : q ∈ fl := by rw [hq]; exact .head _
          have htmem : t ∈ fl := by rw [hq]; simp
          have hdt : d ≠ t := by
            rintro rfl
            cases hd.symm.trans ((h.free d).mp htmem)
          have hdq : d ≠ q := by
            rintro rfl
            cases hd.symm.trans ((h.free d).mp hqmem)
          refine ih hu ?_ hv'
          rw [update_of_ne hdq, update_of_ne hdt]
          exact hd
        · have hqmem : q ∈ fl := by rw [hq]; exact .head _
          exact ih hu ((Touch.update (hopen q hqmem) (.inr (.inl rfl))).dir hd) hv'

/-- **`allocuvm` to the size zero never returns**, be there memory or not. -/
theorem post_allocuvm_zero (h : Owned s own fl) (hd : own d = .dir) {fuel oldsz : Nat}
    (hfuel : 0 < fuel) (hloop : E .loop) (hremap : E (.panic "remap")) {Q : Nat → Phys → Prop} :
    Post (allocuvm fuel (d * 4096) oldsz 0) E Q s := by
  have hup : pgroundup oldsz = pgroundup oldsz / 4096 * 4096 ∧ pgroundup oldsz / 4096 < 1048576 := by
    unfold pgroundup PGSIZE
    omega
  rw [allocuvm, if_neg (by decide), post_bind, hup.1]
  exact post_allocuvmLoop_zero h hd hup.2 hfuel hloop hremap

/-! ## `growproc` -/

theorem Bounded.freed {n lo hi : Nat} (hb : Bounded own d n) : Bounded (freed own d lo hi) d n := by
  intro q v hq
  unfold Vm.freed at hq
  split at hq
  · cases hq
  · exact hb q v hq

/-- Freeing the pages from `lo` on. -/
theorem Bounded.freed_low {n lo : Nat} (hb : Bounded own d n) : Bounded (Vm.freed own d lo n) d lo := by
  intro q v hq
  unfold Vm.freed at hq
  split at hq
  · cases hq
  · rename_i hin
    by_contra hge
    rw [hq] at hin
    exact hin (decide_eq_true ⟨rfl, by omega, hb q v hq⟩)

/-- The first page that `deallocuvm` frees when a process of size `sz` grows by `n ≤ 0`. -/
def keptPages (sz : Nat) (n : Int) : Nat := pgroundup (toUint (sz + n)) / 4096

variable {Q : Int × Nat → Phys → Prop}

/-- `growproc(n)` with a positive `n`. -/
theorem post_growproc_pos (h : Owned s own fl) (hd : own d = .dir) {fuel sz : Nat} {n : Int}
    (hb : Bounded own d (pagesOf sz)) (hsz : sz ≤ USERTOP) (hn : 0 < n) (hn' : n < 2147483648)
    (hfuel : 524288 < fuel) (hbig : USERTOP < sz + n.toNat → Q (-1, sz) s)
    (hdone : sz + n.toNat ≤ USERTOP → ∀ own' fl' u, Owned u own' fl' → Touch own own' d →
      Bounded own' d (pagesOf (sz + n.toNat)) → Q (0, sz + n.toNat) u)
    (hfail : sz + n.toNat ≤ USERTOP → ∀ own' fl' u, Owned u own' fl' → Touch own own' d →
      (∀ q x, own' q = .page d x ↔ own q = .page d x) →
      ((∀ i < fl.length, Tabbed own d (pagesOf sz + i)) → own' = own) →
      ((∃ i < fl.length, ¬ Tabbed own d (pagesOf sz + i)) → ∃ p ∈ fl, own' p ≠ .free) →
      Q (-1, sz) u) :
    Post (growproc fuel (d * 4096) sz n) E Q s := by
  have hnew : toUint (sz + n) = sz + n.toNat := by
    unfold toUint
    unfold USERTOP at hsz
    omega
  have hmax : max sz (sz + n.toNat) = sz + n.toNat := by omega
  rw [growproc, if_pos hn, post_bind, hnew]
  refine post_allocuvm_touch h hd hb hsz (by omega) hfuel (fun hlt => ?_)
    (fun hle own' fl' u hu ht hb' => ?_) fun hle own' fl' u hu ht hp hc hsp => ?_
  · rw [if_pos rfl, post_pure]
    exact hbig hlt
  · rw [hmax] at hb' ⊢
    have := pagesOf_le hle
    rw [if_neg (by omega), post_bind]
    refine post_switchuvm hu (ht.dir hd) hb' (by omega) hfuel ?_
    exact post_pure.mpr (hdone hle own' fl' u hu ht hb')
  · rw [if_pos rfl, post_pure]
    exact hfail hle own' fl' u hu ht hp hc hsp

theorem Uses.touch {own' : Nat → Owner} {used fl' : List Nat} (huses : Uses own own' d used)
    (h : Owned s own fl) (hfl : fl = used ++ fl') : Touch own own' d := by
  intro p
  by_cases hp : p ∈ used
  · refine .inr ⟨.inl ((h.free p).mp ?_), .inr (.inr (huses.on p hp))⟩
    exact hfl ▸ List.mem_append_left _ hp
  · exact .inl (huses.off p hp)

/-- An allocation only takes pages that were free. -/
theorem Owned.touch_of_free {own' : Nat → Owner} (h : Owned s own fl)
    (hoff : ∀ p, p ∉ fl → own' p = own p)
    (hon : ∀ p ∈ fl, own' p = .free ∨ own' p = .held ∨ (own' p).ofSpace d) : Touch own own' d := by
  intro q
  by_cases hq : q ∈ fl
  · exact .inr ⟨.inl ((h.free q).mp hq), hon q hq⟩
  · exact .inl (hoff q hq)

/-- `growproc(n)` with a positive `n` for an address space without holes, unless there is memory for
all pages but not for the page table of the last one. -/
theorem post_growproc_shape (h : Owned s own fl) {fuel sz k : Nat} {n : Int}
    (hshape : Shape own d (pagesOf sz) k) (hsz : sz ≤ USERTOP) (hn : 0 < n) (hn' : n < 2147483648)
    (hfuel : 1048576 < fuel)
    (hlast : sz + n.toNat ≤ USERTOP →
      ¬ LastTableShort fl.length (pagesOf sz) k (pagesOf (sz + n.toNat)))
    (hdone : sz + n.toNat ≤ USERTOP → ∀ own' fl' u k', Owned u own' fl' → Touch own own' d →
      Shape own' d (pagesOf (sz + n.toNat)) k' → Q (0, sz + n.toNat) u)
    (hfail : ∀ own' fl' u k', Owned u own' fl' → Touch own own' d → Shape own' d (pagesOf sz) k' →
      Q (-1, sz) u) :
    Post (growproc fuel (d * 4096) sz n) E Q s := by
  have hnew : toUint (sz + n) = sz + n.toNat := by
    unfold toUint
    unfold USERTOP at hsz
    omega
  have hval : (if sz + n.toNat > sz then sz + n.toNat else sz) = sz + n.toNat := if_pos (by omega)
  rw [growproc, if_pos hn, post_bind, hnew]
  refine post_allocuvm h hshape hsz (by omega) hfuel (fun _ => ?_) fun htop r u hgrow => ?_
  · rw [if_pos rfl, post_pure]
    exact hfail own fl s k h (.refl _ _) hshape
  rw [hval]
  cases hgrow with
  | done hu hfl hlen huses hshape' =>
      have hmax : max (pagesOf sz) (pagesOf (sz + n.toNat)) = pagesOf (sz + n.toNat) := by
        unfold pagesOf
        omega
      have hpages := pagesOf_le htop
      rw [hmax] at hshape'
      rw [if_pos rfl, if_neg (by omega), post_bind]
      refine post_switchuvm hu hshape'.dir hshape'.bounded hpages (by omega) (post_pure.mpr ?_)
      exact hdone htop _ _ u _ hu (huses.touch h hfl) hshape'
  | short hu hlen htab hoff hon hshape' =>
      rw [if_neg Bool.false_ne_true, if_pos rfl, post_pure]
      exact hfail _ _ u _ hu (h.touch_of_free hoff fun p hp => (hon p hp).imp_right .inr) hshape'
  | leak hu htab hoff hon hp hheld hshape' hr =>
      cases r with
      | true => exact absurd hr.2.2.2 (hlast htop)
      | false =>
          obtain ⟨rfl, -⟩ := hr
          rw [if_neg Bool.false_ne_true, if_pos rfl, post_pure]
          exact hfail _ _ u _ hu (h.touch_of_free hoff hon) hshape'

/-- `growproc(n)` otherwise. -/
theorem post_growproc_neg (h : Owned s own fl) (hd : own d = .dir) {fuel sz : Nat} {n : Int}
    (hb : Bounded own d (pagesOf sz)) (hpos : 0 < sz) (hsz : sz ≤ USERTOP) (hn : n ≤ 0)
    (hn' : -2147483648 ≤ n) (hfuel : 524288 < fuel)
    (hQ : ∀ u fl', Owned u (freed own d (keptPages sz n) (pagesOf sz)) fl' →
      Q (if min (toUint (sz + n)) sz = 0 then (-1, sz) else (0, min (toUint (sz + n)) sz)) u) :
    Post (growproc fuel (d * 4096) sz n) E Q s := by
  have hpages := pagesOf_le hsz
  have hswitch : ∀ u fl' r, Owned u (freed own d (keptPages sz n) (pagesOf sz)) fl' → Q r u →
      Post (do
        switchuvm fuel (d * 4096)
        pure r) E Q u := by
    intro u fl' r hu hr
    rw [post_bind]
    exact post_switchuvm hu ((Touch.freed own d _ _).dir hd) hb.freed hpages hfuel
      (post_pure.mpr hr)
  rw [growproc, if_neg (by omega)]
  by_cases hneg : n < 0
  · have hkept : pgroundup (toUint (sz + n)) = keptPages sz n * 4096 ∧ keptPages sz n ≤ 1048575 := by
      unfold keptPages pgroundup PGSIZE
      omega
    have hmin : (if toUint (sz + n) < sz then toUint (sz + n) else sz) = min (toUint (sz + n)) sz := by
      split <;> omega
    rw [if_pos hneg, post_bind, deallocuvm, post_bind, hkept.1, lastPage_of_pos hsz hpos]
    refine post_deallocuvmLoop h hd (pagesOf_pos hpos) hpages hkept.2 (by omega)
      fun u fl' hu _ => ?_
    have hr := hQ u fl' hu
    rw [post_pure, hmin]
    split
    · rename_i h0
      rw [if_pos h0] at hr
      exact post_pure.mpr hr
    · rename_i h0
      rw [if_neg h0] at hr
      exact hswitch u fl' _ hu hr
  · obtain rfl : n = 0 := by omega
    have huint : toUint ((sz : Int) + 0) = sz := by
      unfold toUint
      unfold USERTOP at hsz
      omega
    have hkept : keptPages sz 0 = pagesOf sz := by
      rw [keptPages, huint, pgroundup_of_le hsz, Nat.mul_div_cancel _ (by decide)]
    rw [if_neg hneg]
    have hown : Owned s (freed own d (keptPages sz 0) (pagesOf sz)) fl := by
      rwa [hkept, freed_empty le_rfl]
    have hr := hQ s fl hown
    rw [huint, min_self, if_neg (by omega)] at hr
    exact hswitch s fl _ hown hr

end Xv6.Vm

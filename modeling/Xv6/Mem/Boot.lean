import Mathlib.Data.List.Perm.Subperm
import Xv6.Mem.Calls

/-! # The boot code establishes the invariant

`kinit` frees the pages between the kernel and `PHYSTOP`; the stack of `jkstack`, the directory of
`kvmalloc` and the first process then take pages from the free list. -/

namespace Xv6.Mem

open Lib Run Vm

open Function (update update_comm update_idem update_of_ne update_self)

section

variable {e : KernelEnd} {b : Prop} {s : Sys} {own : Nat → Owner} {fl : List Nat} {E : Stop → Prop}

/-! ## `kinit` -/

/-- The owners when `kinit` has come to the page `i`. -/
def pool (first i : Nat) : Nat → Owner := fun p => if first ≤ p ∧ p < i then .free else .none

theorem pool_succ {first i : Nat} (hi : first ≤ i) :
    pool first (i + 1) = update (update (pool first i) i .held) i .free := by
  rw [update_idem]
  funext p
  by_cases hp : p = i
  · rw [hp, update_self]
    exact if_pos ⟨hi, Nat.lt_succ_self i⟩
  · rw [update_of_ne hp]
    unfold pool
    congr 1
    exact propext ⟨fun h => ⟨h.1, by omega⟩, fun h => ⟨h.1, by omega⟩⟩

theorem KernelEnd.page_le (e : KernelEnd) :
    pgroundup e.addr = e.page * 4096 ∧ 575488 ≤ e.page ∧ e.page ≤ 577536 := by
  have hlow := e.low
  have hhigh := e.high
  unfold KernelEnd.page pgroundup PGSIZE
  unfold PHYSTOP at hhigh
  omega

variable {Q : Unit → Phys → Prop}

/-- The loop of `kinit`. -/
theorem post_kinitLoop {m : Phys} {first i fuel : Nat} (h : Owned m (pool first i) fl)
    (hfirst : 256 ≤ first) (hi : first ≤ i) (htop : i ≤ 577536) (hloop : E .loop)
    (hQ : ∀ u fl', Owned u (pool first 577536) fl' → Q () u) :
    Post (kinitLoop fuel (i * 4096)) E Q m := by
  induction fuel generalizing m i fl with
  | zero => exact post_stop.mpr hloop
  | succ fuel ih =>
      rw [kinitLoop]
      split
      · rename_i hlt
        have hlt' : i < 577536 := by
          unfold PGSIZE PHYSTOP at hlt
          omega
        have hnone : pool first i i = .none := if_neg (by omega)
        have hnext : i * 4096 + PGSIZE = (i + 1) * 4096 := by
          unfold PGSIZE
          omega
        rw [post_bind, hnext]
        refine post_kfree (h.adopt hnone ⟨by omega, hlt'⟩) (update_self ..) fun u _ hu => ?_
        rw [← pool_succ hi] at hu
        exact ih hu (by omega) (by omega)
      · rename_i hge
        obtain rfl : i = 577536 := by
          unfold PGSIZE PHYSTOP at hge
          omega
        exact post_pure.mpr (hQ m fl h)

/-- **`kinit`** frees all pages from the end of the kernel on. -/
theorem post_kinit {mem : Nat → UInt8} {fuel : Nat} (hloop : E .loop)
    (hQ : ∀ u fl, Owned u (pool e.page 577536) fl → Q () u) :
    Post (kinit fuel e) E Q ⟨mem, 0⟩ := by
  obtain ⟨hround, hlow, hhigh⟩ := e.page_le
  have hempty : pool e.page e.page = fun _ => .none := by
    funext p
    exact if_neg (by omega)
  have hstart : Owned ⟨mem, 0⟩ (pool e.page e.page) [] := by
    rw [hempty]
    exact ⟨fun _ h => absurd rfl h, rfl, fun p => ⟨nofun, nofun⟩, List.nodup_nil, nofun, nofun, nofun,
      nofun, nofun, nofun⟩
  rw [kinit, hround]
  exact post_kinitLoop hstart (by omega) le_rfl hhigh hloop hQ

/-! ## The first process -/

/-- `mappages` without memory for a table. -/
theorem post_mappages_short {m : Phys} {d v fuel pa perm : Nat} (h : Owned m own [])
    (hd : own d = .dir) (hno : ∀ t, own t ≠ .tab d (v / 1024)) (hv : v < 1048576) (hloop : E .loop)
    {Q : Bool → Phys → Prop} (hQ : Q false m) :
    Post (mappages fuel (d * 4096) (v * 4096) PGSIZE pa perm) E Q m := by
  cases fuel with
  | zero => exact post_stop.mpr hloop
  | succ fuel =>
      have hla : pgrounddown (v * 4096) = v * 4096 := by
        unfold pgrounddown PGSIZE
        omega
      have hdir : le32 m.mem (d * 4096 + 4 * (v / 1024)) = entry m.mem d (v / 1024) := rfl
      rw [mappages, hla, mappagesLoop, post_bind, walkpgdir, post_bind, post_load, pdx_page hv, hdir]
      rcases h.dir d (v / 1024) hd (by omega) with ⟨t, ht, -⟩ | ⟨-, he⟩
      · exact absurd ht (hno t)
      · rw [he, if_neg (by decide), if_neg (by decide), post_bind]
        refine post_kalloc h (fun _ => ?_) fun _ _ _ hnil => by cases hnil
        exact post_pure.mpr (post_pure.mpr hQ)

/-- **`inituvm`** maps the first page, if there is memory for it and its page table. -/
theorem post_inituvm {m : Phys} {d fuel : Nat} {init : List UInt8} (h : Owned m own fl)
    (hshape : Shape own d 0 0) (hE : ∀ x, NoKfree x → E x)
    (hQ : ∀ own' fl' u, Owned u own' fl' → Touch own own' d → Bounded own' d 1 →
      (2 ≤ fl.length → Shape own' d 1 1) → Q () u) :
    Post (inituvm fuel (d * 4096) init) E Q m := by
  have hloop : E .loop := hE _ (by rintro ⟨⟩)
  have hempty : ∀ q v, own q ≠ .page d v := fun q v hq => by
    have := (hshape.pages v).mp ⟨q, hq⟩
    omega
  have hnotab : ∀ t i, own t ≠ .tab d i := fun t i ht => by
    have := (hshape.tabs i).mp ⟨t, ht⟩
    omega
  -- the code of the process goes to a page that is not pinned
  have hfinish : ∀ own' fl' u q, Owned u own' fl' → ¬ (own' q).pinned → init.length < 4096 →
      Touch own own' d → Bounded own' d 1 → (2 ≤ fl.length → Shape own' d 1 1) →
      Post (store (q * 4096) init) E Q u := by
    intro own' fl' u q hu hpin hlen ht hb hfull
    have hstore := hu.store hpin 0 init (by omega)
    rw [Nat.add_zero] at hstore
    exact post_store.mpr (hQ own' fl' _ hstore ht hb hfull)
  rw [inituvm, post_bind]
  refine post_kalloc h (fun hnil => ?_) fun q fl' u hfl _ hu => ?_
  · subst hnil
    dsimp only [Option.getD_none]
    split
    · exact post_panic.mpr (hE _ (by simp [NoKfree]))
    · rename_i hlen
      have hzero : Owned { m with mem := fill m.mem 0 0 PGSIZE } own [] :=
        h.write (p := 0) h.not_pinned_zero (agreeOff_fill (p := 0) (m := m.mem) (c := 0))
      rw [post_bind, post_memset, post_bind]
      refine post_mappages_short (v := 0) hzero hshape.dir (fun t => hnotab t _) (by decide) hloop ?_
      exact hfinish own [] _ 0 hzero h.not_pinned_zero (by unfold PGSIZE at hlen; omega) (.refl _ _)
        (fun q v hq => absurd hq (hempty q v)) (by rintro ⟨⟩)
  · have hqfree : own q = .free := h.head_free hfl
    have hheld : update own q Owner.held q = .held := update_self ..
    have hold : ∀ p o, o ≠ .held → update own q .held p = o → own p = o := by
      intro p o ho hp
      by_cases he : p = q
      · rw [he, hheld] at hp
        exact absurd hp.symm ho
      · rwa [update_of_ne he] at hp
    have htouch : Touch own (update own q .held) d :=
      .update (.inl hqfree) (.inr (.inl rfl))
    have hdir : update own q Owner.held d = .dir := htouch.dir hshape.dir
    dsimp only [Option.getD_some]
    split
    · exact post_panic.mpr (hE _ (by simp [NoKfree]))
    · rename_i hlen
      have hlen' : init.length < 4096 := by
        unfold PGSIZE at hlen
        omega
      have hclear := hu.write (p := q) (by rw [hheld]; exact id)
        (agreeOff_fill (p := q) (m := u.mem) (c := 0))
      rw [post_bind, post_memset, post_bind]
      cases fuel with
      | zero => exact post_stop.mpr hloop
      | succ fuel =>
          refine post_mappages (v := 0) hclear hdir (by decide) (Nat.succ_pos _) hheld
            (fun p hp => hempty p 0 (hold p _ (by rintro ⟨⟩) hp)) (fun t w ht _ _ => ?_)
            (fun t fl'' w hno hfl' hw _ => ?_) fun _ hnil => ?_
          · exact absurd (hold t (.tab d _) (by rintro ⟨⟩) ht) (hnotab t _)
          · have htfree : update own q Owner.held t = .free :=
              hu.head_free hfl'
            have hqt : q ≠ t := by
              rintro rfl
              cases hheld.symm.trans htfree
            rw [update_of_ne hqt.symm] at htfree
            rw [update_comm hqt.symm, update_idem, update_comm hqt] at hw
            have hpage : ∀ p v, update (update own t (.tab d 0)) q (.page d 0) p =
                .page d v ↔ p = q ∧ v = 0 := by
              intro p v
              by_cases hpq : p = q
              · rw [hpq, update_self, Owner.page.injEq]
                simp [eq_comm]
              · rw [update_of_ne hpq]
                refine iff_of_false (fun hp => ?_) fun hp => hpq hp.1
                by_cases hpt : p = t
                · rw [hpt, update_self] at hp
                  cases hp
                · rw [update_of_ne hpt] at hp
                  exact hempty p v hp
            have htab : ∀ p i, update (update own t (.tab d 0)) q (.page d 0) p =
                .tab d i ↔ p = t ∧ i = 0 := by
              intro p i
              by_cases hpq : p = q
              · rw [hpq, update_self]
                exact iff_of_false (by rintro ⟨⟩) fun hp => hqt hp.1
              · rw [update_of_ne hpq]
                by_cases hpt : p = t
                · rw [hpt, update_self, Owner.tab.injEq]
                  simp [eq_comm]
                · rw [update_of_ne hpt]
                  exact iff_of_false (hnotab p i) fun hp => hpt hp.1
            have ht : Touch own (update (update own t (.tab d 0)) q (.page d 0)) d := by
              refine (Touch.update (.inl htfree) (.inr (.inr ?_))).trans
                (.update (.inl ?_) (.inr (.inr ?_)))
              · simp [Owner.ofSpace]
              · rw [update_of_ne hqt, hqfree]
              · simp [Owner.ofSpace]
            refine hfinish _ fl'' w q hw (by rw [update_self]; exact id) hlen' ht
              (fun p v hp => ?_) fun _ => ⟨ht.dir hshape.dir, fun v => ⟨fun hv => ?_, fun hv => ?_⟩,
                fun i => ⟨fun hi => ?_, fun hi => ?_⟩⟩
            · rw [((hpage p v).mp hp).2]
              exact Nat.one_pos
            · obtain ⟨p, hp⟩ := hv
              rw [((hpage p v).mp hp).2]
              exact Nat.one_pos
            · exact ⟨q, (hpage q v).mpr ⟨rfl, by omega⟩⟩
            · obtain ⟨p, hp⟩ := hi
              rw [((htab p i).mp hp).2]
              exact Nat.one_pos
            · exact ⟨t, (htab t i).mpr ⟨rfl, by omega⟩⟩
          · refine hfinish _ fl' _ q hclear (by rw [hheld]; exact id) hlen' htouch
              (fun p v hp => absurd (hold p (.page d v) (by rintro ⟨⟩) hp) (hempty p v)) fun hlen => ?_
            rw [hfl, hnil, List.length_singleton] at hlen
            exact absurd hlen (by decide)

/-- **`userinit`** makes the first process. -/
theorem SysInv.userinit {role : Nat → Option Anchor} (h : SysInv e b s own fl role) (fuel : Nat)
    (init : List UInt8) (hmem : b → 4 ≤ fl.length) : Post (userinit fuel init) NoKfree (fun _ t => Inv e b t) s := by
  have hstop : ∀ t, Post (stop (.panic "userinit: out of memory?") : MemM Unit) NoKfree
      (fun _ t => Inv e b t) t := fun t => post_stop.mpr (by simp [NoKfree])
  rw [Mem.userinit, post_bind]
  refine post_allocproc h.owned (fun _ => hstop _) (fun q _ _ => hstop _) fun q k fl₁ u _ hfl hu => ?_
  have hk : own k = .free := h.owned.head_free hfl
  dsimp only
  rw [post_bind, post_onPhys]
  refine post_setupkvm hu (fun _ => hstop _) fun d fl₂ u₂ hfl₁ hu₂ hshape hbuilt _ => ?_
  dsimp only
  rw [post_bind, post_setProc, post_bind, post_onPhys]
  refine post_inituvm hu₂ hshape (fun _ hx => hx) fun own' fl' w hw ht hb hfull => ?_
  rw [post_setProc]
  simp only [Sys.putProc_putPhys, Sys.putPhys_putPhys, Sys.putProc_self, Sys.putProc_putProc]
  refine h.birth hk hu (hbuilt.touch hu ht) (ht.dir hshape.dir) hw rfl rfl ?_
  have hsz : 0 < PGSIZE ∧ PGSIZE ≤ USERTOP := by decide
  have hpages : pagesOf PGSIZE = 1 := by decide
  rw [← hpages] at hb
  refine .ofDir rfl hb hsz.1 hsz.2 fun hb' => ⟨1, ?_⟩
  have hlen := hmem hb'
  rw [hfl, hfl₁, List.length_cons, List.length_cons] at hlen
  have hshape' := hfull (by omega)
  rwa [← hpages] at hshape'

/-- The kernel before the first process. -/
theorem sysInv_kernel (mem : Nat → UInt8) {u : Phys} {k d : Nat} (hu : Owned u own fl)
    (hrange : ∀ p, own p ≠ .none → e.page ≤ p) (hk : own k = .held) (hd : own d = .dir) :
    SysInv e b { Sys.zero mem with phys := u, bootStack := k * 4096, kpgdir := d * 4096 } own fl
      (update (update (fun _ => none) k (some .bootStack)) d
        (some (.pgdir none))) := by
  have hkd : k ≠ d := by
    rintro rfl
    cases hk.symm.trans hd
  refine ⟨hu, hrange, fun x a ha => ?_, fun p x hp => ?_, fun q hq => absurd rfl hq,
    fun _ _ => rfl, nofun, nofun⟩
  · cases x with
    | bootStack =>
        obtain rfl : k * 4096 = a := ha
        rw [Nat.mul_div_cancel _ (by decide), update_of_ne hkd, update_self]
        exact ⟨rfl, rfl⟩
    | kstack q => exact absurd rfl ha.1
    | pipe =>
        obtain ⟨f, ⟨h0, -⟩, -⟩ := ha
        exact absurd rfl h0
    | pgdir q =>
        cases q with
        | none =>
            obtain rfl : d * 4096 = a := ha
            rw [Nat.mul_div_cancel _ (by decide), update_self]
            exact ⟨rfl, rfl⟩
        | some q => exact absurd rfl ha.1
  · by_cases hpd : p = d
    · rw [hpd, update_self] at hp
      rw [hpd, hd, ← Option.some.inj hp]
      rfl
    · rw [update_of_ne hpd] at hp
      by_cases hpk : p = k
      · rw [hpk, update_self] at hp
        rw [hpk, hk, ← Option.some.inj hp]
        rfl
      · rw [update_of_ne hpk] at hp
        cases hp

/-- **The boot code** establishes the invariant. -/
theorem post_boot (fuel : Nat) (mem : Nat → UInt8) (init : List UInt8)
    (hmem : b → e.page + 6 ≤ PHYSTOP / PGSIZE) :
    Post (boot fuel e init) NoKfree (fun _ t => Inv e b t) (Sys.zero mem) := by
  rw [boot, post_bind, post_onPhys]
  refine post_kinit (by rintro ⟨⟩) fun u₀ fl₀ hu₀ => ?_
  have hrange₀ : ∀ p, pool e.page 577536 p ≠ .none → e.page ≤ p := by
    intro p hp
    by_contra hlt
    exact hp (if_neg (by omega))
  rw [post_bind, jkstack, post_bind, post_onPhys]
  refine post_kalloc hu₀ (fun _ => post_stop.mpr (by simp [NoKfree])) fun k fl₁ u₁ hfl₁ _ hu₁ => ?_
  have hkfree := (hu₀.free k).mp (by rw [hfl₁]; exact .head _)
  dsimp only
  rw [post_modify, post_bind, kvmalloc, post_bind, post_onPhys]
  refine post_setupkvm hu₁ (fun hnil => ?_) fun d fl₂ u₂ hfl₂ hu₂ _ _ _ => ?_
  · -- there is no memory for the first process either
    rw [post_modify, userinit, post_bind]
    subst hnil
    refine post_allocproc hu₁ (fun _ => post_stop.mpr (by simp [NoKfree]))
      (fun _ _ _ => post_stop.mpr (by simp [NoKfree])) fun q k' fl' u' _ hcons => by cases hcons
  · have hdfree := (hu₁.free d).mp (by rw [hfl₂]; exact .head _)
    have hkd : k ≠ d := by
      rintro rfl
      rw [update_self] at hdfree
      cases hdfree
    rw [update_of_ne hkd.symm] at hdfree
    rw [post_modify]
    refine (sysInv_kernel mem hu₂ (fun p hp => ?_) ?_ (update_self ..)).userinit fuel init ?_
    · by_cases hpd : p = d
      · rw [hpd]
        exact hrange₀ d (by rw [hdfree]; rintro ⟨⟩)
      · rw [update_of_ne hpd] at hp
        by_cases hpk : p = k
        · rw [hpk]
          exact hrange₀ k (by rw [hkfree]; rintro ⟨⟩)
        · rw [update_of_ne hpk] at hp
          exact hrange₀ p hp
    · rw [update_of_ne hkd, update_self]
    · intro hb
      have hsix : 6 ≤ fl₀.length := by
        have hsub : List.range' e.page 6 ⊆ fl₀ := by
          intro p hp
          have hp' := List.mem_range'_1.mp hp
          have hroom := hmem hb
          unfold PHYSTOP PGSIZE at hroom
          exact (hu₀.free p).mpr (if_pos (by omega))
        have hlen := (List.Nodup.subperm List.nodup_range' hsub).length_le
        rwa [List.length_range'] at hlen
      rw [hfl₁, hfl₂, List.length_cons, List.length_cons] at hsix
      omega

theorem Booted.inv (h : Booted e s) (hmem : b → e.page + 6 ≤ PHYSTOP / PGSIZE) : Inv e b s := by
  obtain ⟨fuel, mem, init, hboot⟩ := h
  exact (post_boot fuel mem init hmem).of_eq_ok hboot

end

end Xv6.Mem

import Xv6.Mem.Steps

/-! # The calls of `proc.c` keep the invariant

`wait`, `sbrk`, `exec` and `fork` move pages between the free list and address spaces. For each of
them the owners after the call are known from the memory functions it is made of, and what remains
is that the kernel's data point to pages with the right owners. -/

namespace Xv6.Mem

open Lib Run Vm

open Function (update update_of_ne update_self)

section

variable {e : KernelEnd} {b : Prop} {s t : Sys} {own own' : Nat → Owner} {fl fl' : List Nat}
  {role role' : Nat → Option Anchor} {E : Stop → Prop}

/-! ## Changes of owners -/

variable {u : Phys} {fuel : Nat} {p : Pid}

theorem Sys.holds_phys {x : Anchor} {a : Nat} : (s.putPhys u).Holds x a ↔ s.Holds x a := by
  cases x with
  | pgdir q => cases q <;> exact .rfl
  | _ => exact .rfl

section

variable (h : SysInv e b s own fl role)

include h

/-- The kernel stack of a process. -/
theorem SysInv.kstack {q : Pid} (hq : s.Used q) :
    (s.proc q).kstack = (s.proc q).kstack / 4096 * 4096 ∧
      role ((s.proc q).kstack / 4096) = some (.kstack q) ∧ own ((s.proc q).kstack / 4096) = .held := by
  have hhold : s.Holds (.kstack q) (s.proc q).kstack := ⟨hq, rfl⟩
  exact ⟨(h.holds _ _ hhold).1, (h.holds _ _ hhold).2, h.own_eq hhold⟩

/-- The page directory of a process. -/
theorem SysInv.pgdir {q : Pid} (hq : s.Used q) :
    (s.proc q).pgdir = (s.proc q).pgdir / 4096 * 4096 ∧
      role ((s.proc q).pgdir / 4096) = some (.pgdir (some q)) ∧
      own ((s.proc q).pgdir / 4096) = .dir := by
  have hhold : s.Holds (.pgdir (some q)) (s.proc q).pgdir := ⟨hq, rfl⟩
  exact ⟨(h.holds _ _ hhold).1, (h.holds _ _ hhold).2, h.own_eq hhold⟩

/-- Processes have different page directories. -/
theorem SysInv.pgdir_ne {p q : Pid} (hp : s.Used p) (hq : s.Used q)
    (hne : q ≠ p) : (s.proc q).pgdir / 4096 ≠ (s.proc p).pgdir / 4096 := by
  intro he
  have hrole := (h.pgdir hq).2.1
  rw [he, (h.pgdir hp).2.1] at hrole
  exact hne (Option.some.inj (Anchor.pgdir.inj (Option.some.inj hrole))).symm

/-- The owners change, and nothing else that the invariant reads. -/
theorem SysInv.move (hu : Owned u own' fl')
    (hnone : ∀ p, own p = .none → own' p = .none) (hkind : ∀ p x, role p = some x → own' p = own p)
    (hspace : ∀ q, s.Used q → SameSpace own own' ((s.proc q).pgdir / 4096)) :
    SysInv e b (s.putPhys u) own' fl' role where
  owned := hu
  range p hp := h.range p fun hn => hp (hnone p hn)
  holds x a ha := h.holds x a (Sys.holds_phys.mp ha)
  kind p x hp := (hkind p x hp).trans (h.kind p x hp)
  space q hq := (h.space q hq).same (hspace q hq)
  files := ⟨h.files.closed, h.files.flag, h.files.ends⟩

/-- Free pages are lost. -/
theorem SysInv.lost (hu : Owned u own' fl') (hlost : Lost own own') :
    SysInv e b (s.putPhys u) own' fl' role := by
  refine h.move hu (fun p hp => ?_) (fun p x hp => ?_) fun _ _ => hlost.same
  · rcases hlost p with he | ⟨hfree, -⟩
    · rw [he, hp]
    · cases hp.symm.trans hfree
  · rcases hlost p with he | ⟨hfree, -⟩
    · exact he
    · exact absurd hp (h.role_ne hfree x)

/-- A page directory that nothing points to is freed with its tables and pages. -/
theorem SysInv.giveSpace {d : Nat} (hd : own d = .dir)
    (hno : ∀ x, ¬ s.Holds x (d * 4096)) (hu : Owned u (released own d) fl') :
    SysInv e b (s.putPhys u) (released own d) fl' (update role d none) where
  owned := hu
  range p hp := by
    refine h.range p fun hn => hp ?_
    have hpd : p ≠ d := by
      rintro rfl
      cases hn.symm.trans hd
    rw [released, hn]
    simp [Owner.ofSpace, hpd]
  holds x a ha := by
    rw [Sys.holds_phys] at ha
    obtain ⟨halign, hrole⟩ := h.holds x a ha
    refine ⟨halign, ?_⟩
    rw [update_of_ne, hrole]
    rintro rfl
    rw [halign] at ha
    exact hno x ha
  kind p x hp := by
    by_cases hpd : p = d
    · rw [hpd, update_self] at hp
      cases hp
    · rw [update_of_ne hpd] at hp
      have hown := h.kind p x hp
      rw [released, hown, if_neg]
      cases x <;> simp [Owner.ofSpace, Anchor.owner, hpd]
  space q hq := by
    refine (h.space q hq).same (.released hd fun he => hno (.pgdir (some q)) ⟨hq, ?_⟩)
    rw [(h.pgdir hq).1, he]
  files := ⟨h.files.closed, h.files.flag, h.files.ends⟩

end

/-! ## `wait` -/

/-- `freevm` of a directory in the kernel's data. -/
theorem post_freevmAt {m : Phys} (h : Owned m own fl) {a n fuel : Nat} (ha : a = a / 4096 * 4096)
    (hd : own (a / 4096) = .dir) (hb : Bounded own (a / 4096) n) (hn : n ≤ 524288)
    (hfuel : 524288 < fuel) {Q : Unit → Phys → Prop}
    (hQ : ∀ u fl', Owned u (released own (a / 4096)) fl' → Q () u) :
    Post (freevm fuel a) E Q m := by
  generalize hk : a / 4096 = k at *
  subst ha
  exact post_freevm h hd (fun q v hq => lt_of_lt_of_le (hb q v hq) hn) hfuel
    fun u fl' hu _ => hQ u fl' hu

/-- **`wait`** keeps the invariant. -/
theorem Inv.wait (h : Inv e b s) (p : Pid) (hfuel : 524288 < fuel) :
    Post (wait fuel p) NoKfree (fun _ t => Inv e b t) s := by
  obtain ⟨own, fl, role, hinv⟩ := h
  rw [Mem.wait, post_bind, post_get]
  split
  · exact post_pure.mpr ⟨own, fl, role, hinv⟩
  · rename_i q hq
    have hzombie := List.find?_some hq
    have hstate : (s.proc q).state = .ZOMBIE := (of_decide_eq_true hzombie).2
    have hused : s.Used q := by
      unfold Sys.Used
      rw [hstate]
      exact nofun
    obtain ⟨hkalign, hkrole, hkown⟩ := hinv.kstack hused
    obtain ⟨hdalign, hdrole, hdown⟩ := hinv.pgdir hused
    obtain ⟨hb, -, hsz⟩ := hinv.space q hused
    have hne : (s.proc q).pgdir / 4096 ≠ (s.proc q).kstack / 4096 := by
      intro he
      rw [he, hkown] at hdown
      cases hdown
    -- the state in which the entry is unused and its pages are still there
    have hgone := hinv.congr (.putProc (q := q) (x := { s.proc q with
      kstack := 0, state := .UNUSED, parent := none }) fun hst => absurd rfl hst)
    have hno : ∀ x k, role k = some x → x = .kstack q ∨ x = .pgdir (some q) → ∀ y,
        ¬ (s.putProc q { s.proc q with kstack := 0, state := .UNUSED, parent := none }).Holds y
          (k * 4096) := by
      intro x k hrole hx y hy
      have hyrole := (hgone.holds y _ hy).2
      rw [Nat.mul_div_cancel _ (by decide), hrole] at hyrole
      obtain rfl := Option.some.inj hyrole
      rcases hx with rfl | rfl
      · have := hy.1
        unfold Sys.Used at this
        rw [Sys.putProc_self] at this
        exact this rfl
      · have := hy.1
        unfold Sys.Used at this
        rw [Sys.putProc_self] at this
        exact this rfl
    rw [post_bind, post_onPhys]
    refine post_kfreeAt hinv.owned hkalign hkown fun u hu => ?_
    rw [post_bind, post_onPhys]
    have hstep := hgone.giveBack hkown (hno _ _ hkrole (.inl rfl)) hu
    have hdown' : update own ((s.proc q).kstack / 4096) .free ((s.proc q).pgdir / 4096) =
        .dir := by
      rw [update_of_ne hne, hdown]
    refine post_freevmAt hu hdalign hdown' (hb.mono fun q' v hq' => ?_) (pagesOf_le hsz) hfuel
      fun w fl' hw => ?_
    · by_cases he : q' = (s.proc q).kstack / 4096
      · rw [he, update_self] at hq'
        cases hq'
      · rwa [update_of_ne he] at hq'
    · rw [post_bind, post_setProc, post_pure]
      exact ⟨_, _, _, hstep.giveSpace hdown'
        (fun x hx => hno _ _ hdrole (.inr rfl) x (Sys.holds_phys.mp hx)) hw⟩

/-! ## `sbrk` -/

/-- The address space of a process changes, and its size. -/
theorem SysInv.touch (h : SysInv e b s own fl role) (hp : s.Used p) (hu : Owned u own' fl')
    (ht : Touch own own' ((s.proc p).pgdir / 4096)) {sz : Nat}
    (hspace : Space b own' { s.proc p with sz := sz }) :
    SysInv e b ((s.putPhys u).putProc p { s.proc p with sz := sz }) own' fl' role where
  owned := hu
  range q hq := h.range q fun hn => hq ((ht.none_iff q).mpr hn)
  holds x a ha := by
    refine h.holds x a ?_
    have hused : ∀ q, ((s.putPhys u).putProc p { s.proc p with sz := sz }).Used q →
        s.Used q := by
      intro q hq
      unfold Sys.Used at hq ⊢
      by_cases he : q = p
      · rw [he, Sys.putProc_self] at hq
        rwa [he]
      · rwa [Sys.putProc_of_ne _ _ he] at hq
    have hproc : ∀ q, (((s.putPhys u).putProc p { s.proc p with sz := sz }).proc
        q).kstack = (s.proc q).kstack ∧ (((s.putPhys u).putProc p
          { s.proc p with sz := sz }).proc q).pgdir = (s.proc q).pgdir := by
      intro q
      by_cases he : q = p
      · rw [he, Sys.putProc_self]
        exact ⟨rfl, rfl⟩
      · rw [Sys.putProc_of_ne _ _ he]
        exact ⟨rfl, rfl⟩
    cases x with
    | kstack q => exact ⟨hused q ha.1, (hproc q).1.symm.trans ha.2⟩
    | pgdir q =>
        cases q with
        | none => exact ha
        | some q => exact ⟨hused q ha.1, (hproc q).2.symm.trans ha.2⟩
    | _ => exact ha
  kind q x hq := by
    have hown := h.kind q x hq
    cases x with
    | pgdir r => exact ht.dir hown
    | _ => exact ht.held hown
  space q hq := by
    by_cases he : q = p
    · rw [he, Sys.putProc_self]
      exact hspace
    · unfold Sys.Used at hq
      rw [Sys.putProc_of_ne _ _ he] at hq ⊢
      exact (h.space q hq).same (ht.same (h.pgdir_ne hp hq he))
  files := ⟨h.files.closed, h.files.flag, h.files.ends⟩

/-- The pages that are left when a process shrinks. -/
theorem bounded_shrink {d sz : Nat} {n : Int} (hb : Bounded own d (pagesOf sz))
    (hsz : sz ≤ USERTOP) :
    Bounded (freed own d (keptPages sz n) (pagesOf sz)) d (pagesOf (min (toUint (sz + n)) sz)) := by
  by_cases hle : toUint (sz + n) ≤ sz
  · have hkept : keptPages sz n = pagesOf (toUint (sz + n)) := by
      rw [keptPages, pgroundup_of_le (hle.trans hsz), Nat.mul_div_cancel _ (by decide)]
    rw [min_eq_left hle, hkept]
    exact hb.freed_low
  · rw [min_eq_right (by omega)]
    exact hb.freed

/-- **`sbrk`** keeps the invariant. -/
theorem Inv.sysSbrk (h : Inv e False s) (hp : s.Used p) (n : BitVec 32) (hfuel : 524288 < fuel) :
    Post (sysSbrk fuel p n.toInt) NoKfree (fun _ t => Inv e False t) s := by
  obtain ⟨own, fl, role, hinv⟩ := h
  obtain ⟨halign, -, hown⟩ := hinv.pgdir hp
  obtain ⟨hb, hpos, hsz⟩ := hinv.space p hp
  have hlow := BitVec.le_toInt n
  have hhigh := BitVec.toInt_lt (x := n)
  rw [Mem.sysSbrk, post_bind, post_get, post_bind, post_onPhys]
  have hdone : ∀ own' fl' u sz (r : Int), Owned u own' fl' →
      Touch own own' ((s.proc p).pgdir / 4096) →
      Bounded own' ((s.proc p).pgdir / 4096) (pagesOf sz) → 0 < sz → sz ≤ USERTOP →
      Post (do
        setProc p fun x => { x with sz := sz }
        pure (decide (r = 0))) NoKfree (fun _ t => Inv e False t) (s.putPhys u) := by
    intro own' fl' u sz r hu ht hb' hpos' hsz'
    rw [post_bind, post_setProc, post_pure]
    exact ⟨own', fl', role, hinv.touch hp hu ht ⟨hb', hpos', hsz', nofun⟩⟩
  generalize hd : (s.proc p).pgdir / 4096 = d at halign hown hb hdone
  rw [halign]
  by_cases hn : 0 < n.toInt
  · refine post_growproc_pos hinv.owned hown hb hsz hn (by omega) hfuel (fun _ => ?_)
      (fun hle own' fl' u hu ht hb' => ?_) fun _ own' fl' u hu ht hpage _ _ => ?_
    · exact hdone own fl s.phys _ _ hinv.owned (.refl _ _) hb hpos hsz
    · exact hdone own' fl' u _ _ hu ht hb' (by omega) hle
    · exact hdone own' fl' u _ _ hu ht (hb.mono fun q v hq => (hpage q v).mp hq) hpos hsz
  · refine post_growproc_neg hinv.owned hown hb hpos hsz (by omega) (by omega) hfuel fun u fl' hu => ?_
    by_cases hmin : min (toUint ((s.proc p).sz + n.toInt)) (s.proc p).sz = 0
    · rw [if_pos hmin]
      exact hdone _ fl' u _ _ hu (.freed own d _ _) hb.freed hpos hsz
    · rw [if_neg hmin]
      exact hdone _ fl' u _ _ hu (.freed own d _ _) (bounded_shrink hb hsz) (by omega) (by omega)

/-! ## `exec` -/

/-- A process gets the new address space `d`, and its old one is released. -/
theorem SysInv.replace (h : SysInv e b s own fl role) (hp : s.Used p) {d sz : Nat}
    (hb : Building own own' fl d sz) (hpos : 0 < sz) (hfull : b → ∃ k, Shape own' d (pagesOf sz) k)
    (hu : Owned u (released own' ((s.proc p).pgdir / 4096)) fl') :
    Inv e b ((s.putPhys u).putProc p { s.proc p with pgdir := d * 4096, sz := sz }) := by
  obtain ⟨halign, hrole, hown⟩ := h.pgdir hp
  have hdfree := (h.owned.free d).mp hb.built.mem
  have hdne : d ≠ (s.proc p).pgdir / 4096 := by
    rintro rfl
    cases hdfree.symm.trans hown
  have hown' : own' ((s.proc p).pgdir / 4096) = .dir := (hb.built.same h.owned hown).dir hown
  -- pages with a role have not been free
  have hkeep : ∀ q x, role q = some x → q ≠ (s.proc p).pgdir / 4096 →
      released own' ((s.proc p).pgdir / 4096) q = own q := by
    intro q x hq hne
    have hoff : own' q = own q := hb.built.off q fun hmem =>
      h.role_ne ((h.owned.free q).mp hmem) x hq
    rw [released, hoff, if_neg]
    rw [h.kind q x hq]
    cases x <;> simp [Owner.ofSpace, Anchor.owner, hne]
  refine ⟨_, fl', update (update role ((s.proc p).pgdir / 4096) none) d
    (some (.pgdir (some p))), hu, fun q hq => ?_, fun x a ha => ?_, fun q x hq => ?_, fun q hq => ?_,
    ⟨h.files.closed, h.files.flag, h.files.ends⟩⟩
  · refine h.range q fun hn => hq ?_
    have hoff : own' q = .none := by
      rw [hb.built.off q fun hmem => ?_, hn]
      cases hn.symm.trans ((h.owned.free q).mp hmem)
    rw [released, hoff, if_neg]
    rintro (rfl | ho)
    · cases hoff.symm.trans hown'
    · cases ho
  · -- what points to a page is the new directory, or it did so before
    have hold : ∀ y b, s.Holds y b → y ≠ .pgdir (some p) → b = b / 4096 * 4096 ∧ update
        (update role ((s.proc p).pgdir / 4096) none) d (some (.pgdir (some p))) (b / 4096) =
          some y := by
      intro y b hy hne
      obtain ⟨hbalign, hyrole⟩ := h.holds y b hy
      refine ⟨hbalign, ?_⟩
      rw [update_of_ne, update_of_ne, hyrole]
      · intro he
        rw [he, hrole] at hyrole
        exact hne (Option.some.inj hyrole).symm
      · intro he
        rw [he] at hyrole
        exact h.role_ne hdfree y hyrole
    cases x with
    | bootStack => exact hold _ a ha (by rintro ⟨⟩)
    | pipe => exact hold _ a ha (by rintro ⟨⟩)
    | kstack q =>
        refine hold (.kstack q) a ?_ (by rintro ⟨⟩)
        obtain ⟨hused, hk⟩ := ha
        unfold Sys.Used at hused
        by_cases he : q = p
        · subst he
          rw [Sys.putProc_self] at hk
          exact ⟨hp, hk⟩
        · rw [Sys.putProc_of_ne _ _ he] at hused hk
          exact ⟨hused, hk⟩
    | pgdir q =>
        cases q with
        | none => exact hold _ a ha (by rintro ⟨⟩)
        | some q =>
            obtain ⟨hused, hk⟩ := ha
            unfold Sys.Used at hused
            by_cases he : q = p
            · rw [he, Sys.putProc_self] at hk
              subst hk
              rw [Nat.mul_div_cancel _ (by decide), update_self, he]
              exact ⟨rfl, rfl⟩
            · rw [Sys.putProc_of_ne _ _ he] at hused hk
              exact hold (.pgdir (some q)) a ⟨hused, hk⟩ fun heq =>
                he (Option.some.inj (Anchor.pgdir.inj heq))
  · by_cases hqd : q = d
    · subst hqd
      rw [update_self] at hq
      rw [← Option.some.inj hq, released, hb.dir, if_neg]
      · rfl
      · simp [Owner.ofSpace, hdne]
    · rw [update_of_ne hqd] at hq
      by_cases hqo : q = (s.proc p).pgdir / 4096
      · rw [hqo, update_self] at hq
        cases hq
      · rw [update_of_ne hqo] at hq
        rw [hkeep q x hq hqo]
        exact h.kind q x hq
  · by_cases he : q = p
    · rw [he, Sys.putProc_self]
      have hsame := SameSpace.released hown' hdne
      exact .ofDir rfl (fun q' v hq' => hb.bounded q' v ((hsame.page q' v).mp hq')) hpos hb.le
        fun hb' => (hfull hb').imp fun _ hk => hk.same hsame
    · unfold Sys.Used at hq
      rw [Sys.putProc_of_ne _ _ he] at hq ⊢
      exact (h.space q hq).same ((hb.built.same h.owned (h.pgdir hq).2.2).trans
        (.released hown' (h.pgdir_ne hp hq he)))

/-- **`exec`** keeps the invariant if the arguments fit on the stack page. -/
theorem Inv.execFile (h : Inv e False s) (hp : s.Used p) (file : Option (List UInt8))
    (path : List UInt8) {argv : List (List UInt8)} (hargs : ArgsFit argv) (hfuel : 524288 < fuel) :
    Post (execFile fuel p file path argv) NoKfree (fun _ t => Inv e False t) s := by
  obtain ⟨own, fl, role, hinv⟩ := h
  obtain ⟨halign, -, hown⟩ := hinv.pgdir hp
  obtain ⟨hb, hpos, hsz⟩ := hinv.space p hp
  rw [Mem.execFile, post_bind, post_zoom]
  refine post_execImage (x := execView p s) hinv.owned (fun _ he => he) hfuel hargs rfl halign hown hb
    (pagesOf_le hsz) (fun own' fl' u hu hlost => ?_)
    fun own' fl' u d sz' name spc sgr hbuild hpos' hu => ?_
  · refine post_pure.mpr ⟨own', fl', role, (hinv.lost hu hlost).congr (.putProc fun hused => ?_)⟩
    exact ⟨hused, rfl, rfl, rfl⟩
  · exact post_pure.mpr (hinv.replace hp hbuild hpos' nofun hu)

/-! ## `fork` -/

/-- **`allocproc`** finds an unused entry and takes a page for its kernel stack. -/
theorem post_allocproc (h : Owned s.phys own fl) {Q : Option Pid → Sys → Prop}
    (hfull : (∀ q, s.Used q) → Q none s)
    (hnone : ∀ q, (s.proc q).state = .UNUSED → fl = [] →
      Q none (s.putProc q { s.proc q with kstack := 0, state := .UNUSED }))
    (hsome : ∀ q k fl' u, (s.proc q).state = .UNUSED → fl = k :: fl' →
      Owned u (update own k .held) fl' →
      Q (some q) ((s.putPhys u).putProc q
        { s.proc q with state := .EMBRYO, kstack := k * 4096 })) :
    Post allocproc E Q s := by
  rw [allocproc, post_bind, post_get]
  split
  · rename_i hall
    refine post_pure.mpr (hfull fun q hq => ?_)
    have hnot := List.find?_eq_none.mp hall q (List.mem_finRange q)
    exact hnot (decide_eq_true hq)
  · rename_i q hq
    have hunused := List.find?_some hq
    have hstate : (s.proc q).state = .UNUSED := of_decide_eq_true hunused
    rw [post_bind, post_setProc, post_bind, post_onPhys]
    refine post_kalloc h (fun hnil => ?_) fun k fl' u hfl _ hu => ?_
    · simp only [post_bind, post_setProc, post_pure, Sys.putProc_putPhys, Sys.putProc_self,
        Sys.putProc_putProc]
      exact hnone q hstate hnil
    · simp only [post_bind, post_setProc, post_pure, Sys.putProc_putPhys, Sys.putProc_self,
        Sys.putProc_putProc]
      exact hsome q k fl' u hstate hfl hu

/-- A new process with its kernel stack `k` and its address space `d`. -/
theorem SysInv.birth (h : SysInv e b s own fl role) {q : Pid} {k d : Nat} {fl₁ : List Nat} {u w : Phys}
    {x : Proc} (hk : own k = .free) (hu : Owned u (update own k .held) fl₁)
    (hb : Built (update own k .held) own' fl₁ d) (hdir : own' d = .dir)
    (hw : Owned w own' fl') (hkstack : x.kstack = k * 4096) (hpgdir : x.pgdir = d * 4096)
    (hspace : Space b own' x) : Inv e b ((s.putPhys w).putProc q x) := by
  have hheld : update own k Owner.held k = .held := update_self ..
  have hkout : k ∉ fl₁ := fun hmem => by cases hheld.symm.trans ((hu.free k).mp hmem)
  have hdk : d ≠ k := by
    rintro rfl
    exact hkout hb.mem
  have hdfree : own d = .free := by
    have := (hu.free d).mp hb.mem
    rwa [update_of_ne hdk] at this
  have hold : ∀ p, p ∉ fl₁ → p ≠ k → own' p = own p := fun p hp hpk => by
    rw [hb.off p hp, update_of_ne hpk]
  have hrole : ∀ p y, role p = some y → p ≠ k ∧ p ≠ d ∧ own' p = own p := by
    intro p y hp
    have hpk : p ≠ k := by
      rintro rfl
      exact h.role_ne hk y hp
    refine ⟨hpk, ?_, hold p (fun hmem => ?_) hpk⟩
    · rintro rfl
      exact h.role_ne hdfree y hp
    · have hfree := (hu.free p).mp hmem
      rw [update_of_ne hpk] at hfree
      exact h.role_ne hfree y hp
  refine ⟨own', fl', update (update role k (some (.kstack q))) d
    (some (.pgdir (some q))), hw, fun p hp => ?_, fun y a ha => ?_, fun p y hp => ?_,
    fun p hp => ?_, ⟨h.files.closed, h.files.flag, h.files.ends⟩⟩
  · by_cases hpk : p = k
    · rw [hpk]
      exact h.range k (by rw [hk]; exact nofun)
    · by_cases hmem : p ∈ fl₁
      · have hfree := (hu.free p).mp hmem
        rw [update_of_ne hpk] at hfree
        exact h.range p (by rw [hfree]; exact nofun)
      · rw [hold p hmem hpk] at hp
        exact h.range p hp
  · have hbefore : ∀ z b, s.Holds z b → b = b / 4096 * 4096 ∧ update
        (update role k (some (.kstack q))) d (some (.pgdir (some q))) (b / 4096) =
          some z := by
      intro z b hz
      obtain ⟨hbalign, hzrole⟩ := h.holds z b hz
      obtain ⟨hbk, hbd, -⟩ := hrole _ _ hzrole
      rw [update_of_ne hbd, update_of_ne hbk]
      exact ⟨hbalign, hzrole⟩
    cases y with
    | bootStack => exact hbefore _ a ha
    | pipe => exact hbefore _ a ha
    | kstack p =>
        obtain ⟨hused, ha⟩ := ha
        unfold Sys.Used at hused
        by_cases he : p = q
        · rw [he, Sys.putProc_self, hkstack] at ha
          subst ha
          rw [Nat.mul_div_cancel _ (by decide), update_of_ne hdk.symm,
            update_self, he]
          exact ⟨rfl, rfl⟩
        · rw [Sys.putProc_of_ne _ _ he] at hused ha
          exact hbefore (.kstack p) a ⟨hused, ha⟩
    | pgdir p =>
        cases p with
        | none => exact hbefore _ a ha
        | some p =>
            obtain ⟨hused, ha⟩ := ha
            unfold Sys.Used at hused
            by_cases he : p = q
            · rw [he, Sys.putProc_self, hpgdir] at ha
              subst ha
              rw [Nat.mul_div_cancel _ (by decide), update_self, he]
              exact ⟨rfl, rfl⟩
            · rw [Sys.putProc_of_ne _ _ he] at hused ha
              exact hbefore (.pgdir (some p)) a ⟨hused, ha⟩
  · by_cases hpd : p = d
    · subst hpd
      rw [update_self] at hp
      rw [← Option.some.inj hp, hdir]
      rfl
    · rw [update_of_ne hpd] at hp
      by_cases hpk : p = k
      · subst hpk
        rw [update_self] at hp
        rw [← Option.some.inj hp, hb.off p hkout, hheld]
        rfl
      · rw [update_of_ne hpk] at hp
        rw [(hrole p y hp).2.2]
        exact h.kind p y hp
  · by_cases he : p = q
    · rw [he, Sys.putProc_self]
      exact hspace
    · unfold Sys.Used at hp
      rw [Sys.putProc_of_ne _ _ he] at hp ⊢
      have hpdir : update own k Owner.held ((s.proc p).pgdir / 4096) = .dir := by
        obtain ⟨-, hprole, hpown⟩ := h.pgdir hp
        rw [update_of_ne (hrole _ _ hprole).1, hpown]
      exact (h.space p hp).same ((SameSpace.update (.inl hk) (.inr rfl)).trans (hb.same hu hpdir))

/-- The loop of `fork` over the open files. -/
theorem Inv.dupFiles (h : Inv e b s) (hE : E (.panic "filedup")) (p q : Pid) (fds : List Fd) :
    Post (dupFiles p q fds) E
      (fun _ t => Inv e b t ∧ ∀ q, (t.proc q).state = (s.proc q).state) s := by
  induction fds generalizing s with
  | nil => exact post_pure.mpr ⟨h, fun _ => rfl⟩
  | cons fd fds ih =>
      rw [Mem.dupFiles, post_bind, post_get, post_bind]
      split
      · exact post_pure.mpr (ih h)
      · rename_i f _
        rw [post_bind, filedup, post_bind, post_get]
        split
        · exact post_stop.mpr hE
        · rw [post_setFile, post_setProc]
          have hcount := h.congr (.putRef (f := f) (n := (s.file f).ref + 1) fun h0 =>
            absurd h0 (Nat.succ_ne_zero _))
          refine (ih (hcount.congr .putOfile)).mono (fun _ he => he)
            fun _ t ht => ⟨ht.1, fun q' => ?_⟩
          rw [ht.2 q']
          by_cases he : q' = q
          · rw [he, Sys.putProc_self]
            rfl
          · rw [Sys.putProc_of_ne _ _ he]
            rfl

/-- The owners after a kernel stack has been taken and given back. -/
theorem lost_giveBack {k : Nat} (hk : own k = .free) {fl₁ : List Nat}
    (hu : Owned u (update own k .held) fl₁)
    (h : ∀ p, own' p = update own k .held p ∨ p ∈ fl₁ ∧ own' p = .held) :
    own' k = .held ∧ Lost own (update own' k .free) := by
  have hheld : update own k Owner.held k = .held := update_self ..
  refine ⟨?_, fun p => ?_⟩
  · rcases h k with he | ⟨hmem, -⟩
    · rw [he, hheld]
    · cases hheld.symm.trans ((hu.free k).mp hmem)
  · by_cases hp : p = k
    · left
      rw [hp, update_self, hk]
    · rw [update_of_ne hp]
      rcases h p with he | ⟨hmem, hlost⟩
      · left
        rw [he, update_of_ne hp]
      · right
        have hfree := (hu.free p).mp hmem
        rw [update_of_ne hp] at hfree
        exact ⟨hfree, hlost⟩

/-- `copyuvm` of a directory in the kernel's data. -/
theorem post_copyuvmAt {m : Phys} (h : Owned m own fl) {a fuel sz : Nat} (ha : a = a / 4096 * 4096)
    (hd : own (a / 4096) = .dir) (hsz : sz ≤ USERTOP)
    (hhole : ∀ x < pagesOf sz, (∀ q, own q ≠ .page (a / 4096) x) →
      E (.panic "copyuvm: pte should exist\n") ∧ E (.panic "copyuvm: page not present\n"))
    (hfuel : 524288 < fuel) {Q : Option Nat → Phys → Prop}
    (hdone : ∀ own' fl' d j u, Owned u own' fl' → Built own own' fl d → Shape own' d (pagesOf sz) j →
      Q (some (d * 4096)) u)
    (hfail : ∀ own' fl' u, Owned u own' fl' → (∀ p, own' p = own p ∨ p ∈ fl ∧ own' p = .held) →
      ((∃ p ∈ fl, own' p = .held) ↔ (fl.length - 1) % 1025 = 1) → Q none u) :
    Post (Vm.copyuvm fuel a sz) E Q m := by
  generalize hk : a / 4096 = k at *
  subst ha
  exact post_copyuvm h hd rfl hsz hhole hfuel (fun own' fl' d j u hu hb hs _ => hdone own' fl' d j u hu hb hs)
    fun own' fl' u hu ho hl _ => hfail own' fl' u hu ho hl

/-- **`fork`**: it fails, and at most a page is lost, or the child gets a kernel stack and a copy of
the address space. -/
theorem SysInv.post_fork (h : SysInv e b s own fl role) (hp : s.Used p) (hfuel : 524288 < fuel)
    (hhole : ∀ x < pagesOf (s.proc p).sz, (∀ q, own q ≠ .page ((s.proc p).pgdir / 4096) x) →
      E (.panic "copyuvm: pte should exist\n") ∧ E (.panic "copyuvm: page not present\n"))
    {Q : Bool → Sys → Prop} (hfull : (∀ q, s.Used q) → Q false s)
    (hnone : ∀ q, (s.proc q).state = .UNUSED → fl = [] →
      Q false (s.putProc q { s.proc q with kstack := 0, state := .UNUSED }))
    (hfail : ∀ q own' fl' w, (s.proc q).state = .UNUSED → fl ≠ [] → Owned w own' fl' →
      Lost own own' → ((∃ x, own x = .free ∧ own' x = .held) ↔ (fl.length - 2) % 1025 = 1) →
      Q false ((s.putPhys w).putProc q
        { s.proc q with pgdir := 0, kstack := 0, state := .UNUSED }))
    (hdone : ∀ q k fl₁ u own' fl' d j w, (s.proc q).state = .UNUSED → fl = k :: fl₁ →
      Owned u (update own k .held) fl₁ → Owned w own' fl' →
      Built (update own k .held) own' fl₁ d → Shape own' d (pagesOf (s.proc p).sz) j →
      Post (do
        dupFiles p q (List.finRange NOFILE)
        setProc q fun x => { x with state := .RUNNABLE }
        pure true) E Q ((s.putPhys w).putProc q { s.proc q with
          state := .EMBRYO, kstack := k * 4096, pgdir := d * 4096, sz := (s.proc p).sz,
          parent := some p })) :
    Post (fork fuel p) E Q s := by
  obtain ⟨halign, -, hown⟩ := h.pgdir hp
  obtain ⟨hb, hpos, hsz⟩ := h.space p hp
  rw [fork, post_bind]
  refine post_allocproc h.owned (fun hall => post_pure.mpr (hfull hall))
    (fun q hq hnil => post_pure.mpr (hnone q hq hnil)) fun q k fl₁ u hq hfl hu => ?_
  have hk : own k = .free := h.owned.head_free hfl
  have hqp : p ≠ q := by
    rintro rfl
    exact hp hq
  have hdk : (s.proc p).pgdir / 4096 ≠ k := by
    intro he
    rw [he] at hown
    cases hown.symm.trans hk
  have hown₁ : update own k Owner.held ((s.proc p).pgdir / 4096) = .dir := by
    rw [update_of_ne hdk, hown]
  dsimp only
  rw [post_bind, post_get, post_bind, post_onPhys, Sys.putProc_of_ne _ _ hqp]
  refine post_copyuvmAt hu halign hown₁ hsz (fun x hx hno => hhole x hx fun q' hq' => ?_) hfuel
    (fun own' fl' d j w hw hbuilt hshape => ?_) fun own' fl' w hw hlost hleak => ?_
  · refine hno q' ?_
    rw [update_of_ne, hq']
    rintro rfl
    cases hq'.symm.trans hk
  · have hrest := hdone q k fl₁ u own' fl' d j w hq hfl hu hw hbuilt hshape
    dsimp only
    rw [post_bind, post_setProc]
    simp only [Sys.putProc_putPhys, Sys.putPhys_putPhys, Sys.putProc_self, Sys.putProc_putProc]
    exact hrest
  · obtain ⟨hheld, hlost'⟩ := lost_giveBack hk hu hlost
    dsimp only
    rw [post_bind, post_onPhys, Sys.putProc_self]
    refine post_kfree hw hheld fun x _ hx => ?_
    rw [post_bind, post_setProc, post_pure]
    simp only [Sys.putProc_putPhys, Sys.putPhys_putPhys, Sys.putProc_self, Sys.putProc_putProc]
    refine hfail q _ _ x hq (by rw [hfl]; exact List.cons_ne_nil _ _) hx hlost' ?_
    have hlen : fl.length - 2 = fl₁.length - 1 := by
      rw [hfl, List.length_cons]
      omega
    rw [hlen, ← hleak]
    constructor
    · rintro ⟨y, hy, hy'⟩
      have hyk : y ≠ k := by
        rintro rfl
        rw [update_self] at hy'
        cases hy'
      rw [update_of_ne hyk] at hy'
      refine ⟨y, (hu.free y).mpr ?_, hy'⟩
      rw [update_of_ne hyk, hy]
    · rintro ⟨y, hy, hy'⟩
      have hfree := (hu.free y).mp hy
      have hyk : y ≠ k := by
        rintro rfl
        rw [update_self] at hfree
        cases hfree
      rw [update_of_ne hyk] at hfree
      exact ⟨y, hfree, by rw [update_of_ne hyk, hy']⟩

/-- **`fork`** keeps the invariant. `copyuvm` panics only in an address space with a hole. -/
theorem Inv.fork (h : Inv e b s) (hp : s.Used p) (hfuel : 524288 < fuel) (hE : E (.panic "filedup"))
    (hhole : ¬ b → E (.panic "copyuvm: pte should exist\n") ∧
      E (.panic "copyuvm: page not present\n")) :
    Post (fork fuel p) E (fun _ t => Inv e b t) s := by
  obtain ⟨own, fl, role, hinv⟩ := h
  obtain ⟨-, hpos, hsz, hfull⟩ := hinv.space p hp
  refine hinv.post_fork hp hfuel (fun x hx hno => hhole fun hb => ?_)
    (fun _ => ⟨own, fl, role, hinv⟩) (fun q _ _ => ⟨own, fl, role, hinv.congr (.putProc fun hst => ?_)⟩)
    (fun q own' fl' w _ _ hw hlost _ => ⟨own', fl', role, (hinv.lost hw hlost).congr
      (.putProc fun hst => ?_)⟩) fun q k fl₁ u own' fl' d j w hq hfl hu hw hbuilt hshape => ?_
  · obtain ⟨k, hk⟩ := hfull hb
    obtain ⟨q, hq⟩ := (hk.pages x).mpr hx
    exact hno q hq
  · exact absurd rfl hst
  · exact absurd rfl hst
  · have hk : own k = .free := hinv.owned.head_free hfl
    have hbirth := hinv.birth (q := q) (x := { s.proc q with
        state := .EMBRYO, kstack := k * 4096, pgdir := d * 4096, sz := (s.proc p).sz,
        parent := some p }) hk hu hbuilt hshape.dir hw rfl rfl
        (.ofDir rfl hshape.bounded hpos hsz fun _ => ⟨j, hshape⟩)
    rw [post_bind]
    refine (hbirth.dupFiles hE p q _).mono (fun _ he => he) fun _ t ht => ?_
    rw [post_bind, post_setProc, post_pure]
    refine ht.1.congr (.putProc fun _ => ⟨?_, rfl, rfl, rfl⟩)
    unfold Sys.Used
    rw [ht.2 q, Sys.putProc_self]
    exact nofun

end

end Xv6.Mem

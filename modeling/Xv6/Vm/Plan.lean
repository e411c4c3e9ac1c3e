import Xv6.Vm.Image

/-! # How an `exec` ends

What `exec` does with an executable depends only on the content of the file and on the number of
free pages. `loadPlan` computes how the loop over the program headers ends, and the code does what
is planned. -/

namespace Xv6.Vm

open Lib Run

/-! ## The plan -/

/-- **How the loop of `exec` over the program headers ends.** -/
inductive Plan
  /-- It fails and has lost no page. -/
  | fail
  /-- It does not return, or it has lost a page. -/
  | doomed
  /-- The segments are loaded, and the address space has this size. -/
  | loaded (sz : Nat)
  deriving DecidableEq

/-- How the loop of `loaduvm` ends for a directory with the first `tables` page tables: `none` stands
for its panic, and `some false` for a file that is too short. -/
def segmentLoad (content : List UInt8) (addr offset sz tables : Nat) : (n i : Nat) → Option Bool
  | 0, _ => some true
  | n + 1, i =>
      if i < sz then
        if (addr + i) % 4294967296 / 4096 / 1024 < tables then
          let len := if sz - i < PGSIZE then sz - i else PGSIZE
          if toUint (readAt content ((offset + i) % 4294967296) len).1 ≠ len then some false
          else segmentLoad content addr offset sz tables n (i + PGSIZE)
        else none
      else some true

instance (f n k m : Nat) : Decidable (TableShort f n k m) :=
  decidable_of_iff
    (∃ j, j < m ∧ k ≤ j ∧ n ≤ 1024 * j ∧ 1024 * j < m ∧ f = (1024 * j - n) + (j - k) + 1)
    ⟨fun ⟨j, _, h⟩ => ⟨j, h⟩, fun ⟨j, h⟩ => ⟨j, by omega, h⟩⟩

/-- Memory that is too short for a page table is too short for the pages. -/
theorem TableShort.lt_cost {f n k m : Nat} (h : TableShort f n k m) : f < cost n k m := by
  obtain ⟨j, hk, hn, hm, rfl⟩ := h
  unfold cost tablesFor
  omega

/-- The free pages that are left of `g` when an address space of size `sz` has been built. -/
def pagesLeft (g sz : Nat) : Nat := g - (pagesOf sz + tablesFor (pagesOf sz))

/-- **The plan** for `k` program headers from file offset `off` on, with an address space of size
`sz`, and `g` free pages for the address space. -/
def loadPlan (content : List UInt8) (g : Nat) : (k off sz : Nat) → Plan
  | 0, _, sz => .loaded sz
  | k + 1, off, sz =>
      let rd := readAt content off PROGHDR
      let ph := proghdrOf rd.2
      let newsz := (ph.va + ph.memsz) % 4294967296
      let n := pagesOf sz
      let m := pagesOf newsz
      if toUint rd.1 ≠ PROGHDR then .fail
      else if ph.type ≠ ELF_PROG_LOAD then loadPlan content g k ((off + PROGHDR) % 4294967296) sz
      else if ph.memsz < ph.filesz then .fail
      else if newsz > USERTOP then .fail
      else if newsz = 0 then .doomed
      else if pagesLeft g sz < cost n (tablesFor n) m then
        if TableShort (pagesLeft g sz) n (tablesFor n) m then .doomed else .fail
      else if ph.va % PGSIZE ≠ 0 then .doomed
      else
        match segmentLoad content ph.va ph.offset ph.filesz (tablesFor (max n m))
          (ph.filesz / PGSIZE + 1) 0 with
        | none => .doomed
        | some false => .fail
        | some true => loadPlan content g k ((off + PROGHDR) % 4294967296) (max sz newsz)

/-- The allocation of the stack page after the loop. When it fails, the inode has already been
released, and `exec` releases it again. -/
def Plan.withStack (g : Nat) : Plan → Plan
  | .fail => .fail
  | .doomed => .doomed
  | .loaded sz => if pagesOf sz < 524288 ∧ 0 < pagesLeft g sz then .loaded sz else .doomed

/-- **How `exec` ends** with `f` free pages; `loaded` stands for its success, with the size of the
segments. -/
def execPlan (file : Option (List UInt8)) (f : Nat) : Plan :=
  match file with
  | none => .fail
  | some content =>
      let rd := readAt content 0 ELFHDR
      let elf := elfhdrOf rd.2
      if toUint rd.1 < ELFHDR then .fail
      else if elf.magic ≠ ELF_MAGIC then .fail
      else if f = 0 then .fail
      else (loadPlan content (f - 1) elf.phnum elf.phoff 0).withStack (f - 1)

section

variable {s : Phys} {own own₀ : Nat → Owner} {fl fl₀ : List Nat} {E : Stop → Prop} {d g : Nat}
  {x : ExecState} {s₀ : Phys} {file : Option (List UInt8)} {fuel : Nat}

/-! ## A new address space without losses -/

/-- The new address space `d` has the size `sz` and no page has been lost; `g` pages were free when
it was empty. -/
structure Clean (own₀ own : Nat → Owner) (fl₀ fl : List Nat) (d sz g : Nat) : Prop where
  built : Built own₀ own fl₀ d
  shape : Shape own d (pagesOf sz) (tablesFor (pagesOf sz))
  le : sz ≤ USERTOP
  kept : ∀ p ∈ fl₀, own p ≠ .held
  count : fl.length + (pagesOf sz + tablesFor (pagesOf sz)) = g

theorem Clean.building {sz : Nat} (h : Clean own₀ own fl₀ fl d sz g) : Building own₀ own fl₀ d sz :=
  ⟨h.built, h.shape.dir, h.shape.bounded, h.le⟩

theorem Clean.left {sz : Nat} (h : Clean own₀ own fl₀ fl d sz g) : pagesLeft g sz = fl.length := by
  have := h.count
  unfold pagesLeft
  omega

theorem tablesFor_max (n m : Nat) : max (tablesFor n) (tablesFor m) = tablesFor (max n m) := by
  unfold tablesFor
  omega

/-- An allocation with enough memory. -/
theorem Clean.grow {own' : Nat → Owner} {used fl' : List Nat} {sz newsz : Nat}
    (h₀ : Owned s₀ own₀ fl₀) (h : Owned s own fl) (hc : Clean own₀ own fl₀ fl d sz g)
    (hfl : fl = used ++ fl')
    (hlen : used.length = cost (pagesOf sz) (tablesFor (pagesOf sz)) (pagesOf newsz))
    (huses : Uses own own' d used) (htop : newsz ≤ USERTOP)
    (hshape : Shape own' d (max (pagesOf sz) (pagesOf newsz))
      (max (tablesFor (pagesOf sz)) (tablesFor (pagesOf newsz)))) :
    Clean own₀ own' fl₀ fl' d (max sz newsz) g := by
  have hmax : max (pagesOf sz) (pagesOf newsz) = pagesOf (max sz newsz) := by
    unfold pagesOf
    omega
  refine ⟨hc.built.touch h₀ (huses.touch h hfl), ?_, max_le hc.le htop, fun p hp hheld => ?_, ?_⟩
  · rw [tablesFor_max, hmax] at hshape
    exact hshape
  · by_cases hpu : p ∈ used
    · have := huses.on p hpu
      rw [hheld] at this
      cases this
    · rw [huses.off p hpu] at hheld
      exact hc.kept p hp hheld
  · have hcount := hc.count
    rw [hfl, List.length_append, hlen] at hcount
    rw [← hmax, ← tablesFor_max]
    unfold cost at hcount
    omega

/-! ## Loading a segment -/

/-- **The loop of `loaduvm`** ends as `segmentLoad` says. -/
theorem post_loaduvmLoop_plan {addr offset sz k n m i : Nat} (h : Owned x.phys own fl)
    (hshape : Shape own d m k) (haddr : addr % 4096 = 0) (hi : i % 4096 = 0)
    {Q : Bool → ExecState → Prop}
    (hpanic : segmentLoad (file.getD []) addr offset sz k n i = none →
      E (.panic "loaduvm: address should exist\n"))
    (hQ : ∀ r u, segmentLoad (file.getD []) addr offset sz k n i = some r → Owned u own fl →
      Q r { x with phys := u }) :
    Post (loaduvmLoop (imageOps file fuel) (d * 4096) addr () offset sz n i) E Q x := by
  induction n generalizing x i with
  | zero => exact post_pure.mpr (hQ true x.phys rfl h)
  | succ n ih =>
      rw [segmentLoad] at hpanic hQ
      rw [loaduvmLoop]
      split
      · rename_i hlt
        rw [if_pos hlt] at hpanic hQ
        have hpage : (addr + i) % 4294967296 = (addr + i) % 4294967296 / 4096 * 4096 ∧
            (addr + i) % 4294967296 / 4096 < 1048576 := by omega
        have hlen : (if sz - i < PGSIZE then sz - i else PGSIZE) ≤ 4096 := by
          unfold PGSIZE
          split <;> omega
        generalize (addr + i) % 4294967296 / 4096 = v at hpage hpanic hQ
        rw [post_bind, imageOps_pte, post_onPhys, hpage.1]
        have hnext : v / 1024 < k → ∀ pte, (∃ q, pteAddr pte = q * 4096 ∧ ¬ (own q).pinned) →
            Post (do
              let len := if sz - i < PGSIZE then sz - i else PGSIZE
              let r ← (imageOps file fuel).readi () ((offset + i) % 4294967296) len
              (imageOps file fuel).store (pteAddr pte) r.2
              if toUint r.1 ≠ len then pure false
              else loaduvmLoop (imageOps file fuel) (d * 4096) addr () offset sz n (i + PGSIZE))
              E Q x := by
          rintro htab pte ⟨q, hq, hpin⟩
          rw [if_pos htab] at hpanic hQ
          dsimp only at hpanic hQ ⊢
          generalize (if sz - i < PGSIZE then sz - i else PGSIZE) = len at hlen hpanic hQ
          refine post_loadPage h hq hpin hlen (f := fun r => if toUint r ≠ len then pure false
            else loaduvmLoop (imageOps file fuel) (d * 4096) addr () offset sz n (i + PGSIZE))
            fun u hu => ?_
          split
          · rename_i hne
            rw [if_pos hne] at hQ
            exact post_pure.mpr (hQ false u rfl hu)
          · rename_i heq
            rw [if_neg heq] at hpanic hQ
            exact ih hu (by unfold PGSIZE; omega) hpanic fun r w hr hw => hQ r w hr hw
        refine post_pteAt h hshape.dir hpage.2 (fun q hq => ?_) (fun _ htab => ?_) fun hno => ?_
        · obtain ⟨t, ht⟩ := h.pageTab q d v hq
          refine hnext ((hshape.tabs _).mp ⟨t, ht⟩) _ ⟨q, pteAddr_pteOf q, ?_⟩
          rw [hq]
          exact id
        · exact hnext (hshape.tabbed_iff.mp htab) 0 ⟨0, rfl, h.not_pinned_zero⟩
        · rw [if_neg fun hlt' => hno (hshape.tabbed_iff.mpr hlt')] at hpanic
          exact post_stop.mpr (hpanic rfl)
      · rename_i hge
        rw [if_neg hge] at hQ
        exact post_pure.mpr (hQ true x.phys rfl h)

/-! ## Without memory -/

/-- `allocuvm` with no free page. -/
theorem post_allocuvm_nomem (h : Owned s own []) (hd : own d = .dir) {oldsz newsz : Nat}
    (hb : Bounded own d (pagesOf oldsz)) (hold : oldsz ≤ USERTOP) (hpos : 0 < newsz)
    (hfuel : 524288 < fuel) {Q : Nat → Phys → Prop} (hzero : ∀ u, Owned u own [] → Q 0 u)
    (hsame : pagesOf newsz ≤ pagesOf oldsz → newsz ≤ USERTOP → Q (max oldsz newsz) s) :
    Post (allocuvm fuel (d * 4096) oldsz newsz) E Q s := by
  have hnil : ∀ u fl', Owned u own fl' → fl' = [] := by
    intro u fl' hu
    refine List.eq_nil_iff_forall_not_mem.mpr fun p hp => ?_
    exact List.not_mem_nil ((h.free p).mpr ((hu.free p).mp hp))
  rw [allocuvm]
  split
  · exact post_pure.mpr (hzero s h)
  · rename_i htop
    have htop' : newsz ≤ USERTOP := by omega
    have hpages := pagesOf_le hold
    have hpages' := pagesOf_le htop'
    obtain ⟨fuel, rfl⟩ : ∃ n, fuel = n + 1 := ⟨fuel - 1, by omega⟩
    rw [post_bind, allocuvmLoop, pgroundup_of_le hold, lastPage_of_pos htop' hpos]
    split
    · rw [post_bind]
      refine post_kalloc h (fun _ => ?_) fun _ _ _ hcons => by cases hcons
      dsimp only
      rw [post_bind, deallocuvm, post_bind, pgroundup_of_le hold, lastPage_of_pos htop' hpos]
      refine post_deallocuvmLoop h hd (pagesOf_pos hpos) hpages' (by omega) (by omega)
        fun u fl' hu _ => ?_
      have hsame : freed own d (pagesOf oldsz) (pagesOf newsz) = own := by
        funext p
        unfold freed
        refine if_neg fun hin => ?_
        cases ho : own p with
        | page d' v =>
            rw [ho] at hin
            obtain ⟨rfl, hlo, -⟩ := of_decide_eq_true hin
            have := hb p v ho
            omega
        | _ =>
            rw [ho] at hin
            cases hin
      rw [hsame] at hu
      rw [hnil u fl' hu] at hu
      rw [post_pure, post_pure, post_pure]
      exact hzero u hu
    · rename_i hgt
      have hle : pagesOf newsz ≤ pagesOf oldsz := by
        have := pagesOf_pos hpos
        omega
      have hval : (if newsz > oldsz then newsz else oldsz) = max oldsz newsz := by
        split <;> omega
      rw [post_pure, post_pure, if_pos rfl, hval]
      exact hsame hle htop'

/-- **A load that has lost a page**: the address space is as before, or the load has ended. -/
theorem post_execLoad_doomed {k off sz : Nat} (hfuel : 524288 < fuel)
    (h : Owned x.phys own []) (hb : Building own₀ own fl₀ d sz) {Q : Option Nat → ExecState → Prop}
    (hQ : ∀ r u sz', Owned u own [] → Building own₀ own fl₀ d sz' → r = none ∨ r = some sz' →
      Q r { x with phys := u }) :
    Post (execLoad (imageOps file fuel) (d * 4096) () k off sz) (fun _ => True) Q x := by
  induction k generalizing x off sz with
  | zero => exact post_pure.mpr (hQ (some sz) x.phys sz h hb (.inr rfl))
  | succ k ih =>
      have hbad : ∀ u, Owned u own [] → Q none { x with phys := u } := fun u hu =>
        hQ none u sz hu hb (.inl rfl)
      rw [execLoad, imageOps_readi, post_bind, post_pure]
      generalize readAt (file.getD []) off PROGHDR = rd
      obtain ⟨r, bytes⟩ := rd
      dsimp only
      generalize proghdrOf bytes = ph
      split
      · exact post_pure.mpr (hbad x.phys h)
      · split
        · exact ih h hb hQ
        · split
          · exact post_pure.mpr (hbad x.phys h)
          · rw [imageOps_allocuvm, post_bind, post_onPhys]
            by_cases hzero : (ph.va + ph.memsz) % 4294967296 = 0
            · rw [hzero]
              exact post_allocuvm_zero h hb.dir (by omega) trivial trivial
            · refine post_allocuvm_nomem h hb.dir hb.bounded hb.le (by omega) hfuel
                (fun u hu => ?_) fun hle htop => ?_
              · rw [if_pos rfl]
                exact post_pure.mpr (hbad u hu)
              · have hpages : pagesOf (max sz ((ph.va + ph.memsz) % 4294967296)) = pagesOf sz := by
                  unfold pagesOf at hle ⊢
                  omega
                have hbuild : Building own₀ own fl₀ d (max sz ((ph.va + ph.memsz) % 4294967296)) :=
                  ⟨hb.built, hb.dir, by rw [hpages]; exact hb.bounded, max_le hb.le htop⟩
                rw [if_neg (by omega), post_bind, loaduvm]
                split
                · exact post_stop.mpr trivial
                · rename_i halign
                  refine post_loaduvmLoop h hb.dir (by unfold PGSIZE at halign; omega) rfl trivial
                    fun ok w hw => ?_
                  split
                  · exact ih hw hbuild hQ
                  · exact post_pure.mpr (hQ none w _ hw hbuild (.inl rfl))

/-! ## The load -/

/-- A new address space after an allocation that has lost a page. -/
theorem Building.of_leak {own' : Nat → Owner} {sz sz' n' k' p : Nat} (h₀ : Owned s₀ own₀ fl₀)
    (h : Owned s own fl) (hb : Building own₀ own fl₀ d sz) (hle : sz' ≤ USERTOP)
    (hoff : ∀ p, p ∉ fl → own' p = own p)
    (hon : ∀ p ∈ fl, own' p = .free ∨ own' p = .held ∨ (own' p).ofSpace d)
    (hshape : Shape own' d n' k') (hn : n' ≤ pagesOf sz') (hp : p ∈ fl) (hheld : own' p = .held) :
    Building own₀ own' fl₀ d sz' ∧ ∃ p ∈ fl₀, own' p = .held := by
  refine ⟨⟨hb.built.touch h₀ (h.touch_of_free hoff hon), hshape.dir, fun q v hq => ?_, hle⟩, p, ?_, hheld⟩
  · exact lt_of_lt_of_le (hshape.bounded q v hq) hn
  · exact hb.built.free_subset h₀ h hp

/-- **The loop over the program headers** ends as planned. -/
theorem post_execLoad_plan {k off sz : Nat} (h₀ : Owned s₀ own₀ fl₀) (hfuel : 1048576 < fuel)
    (h : Owned x.phys own fl) (hc : Clean own₀ own fl₀ fl d sz g) {Q : Option Nat → ExecState → Prop}
    (hstop : loadPlan (file.getD []) g k off sz = .doomed → ∀ e, E e)
    (hlost : loadPlan (file.getD []) g k off sz = .doomed → ∀ own' fl' u sz' r, Owned u own' fl' →
      Building own₀ own' fl₀ d sz' → (∃ p ∈ fl₀, own' p = .held) →
      (r = none ∨ r = some sz' ∧ fl' = []) → Q r { x with phys := u })
    (hfail : loadPlan (file.getD []) g k off sz = .fail → ∀ own' fl' u sz', Owned u own' fl' →
      Building own₀ own' fl₀ d sz' → (∀ p ∈ fl₀, own' p ≠ .held) → Q none { x with phys := u })
    (hload : ∀ sz', loadPlan (file.getD []) g k off sz = .loaded sz' → ∀ own' fl' u,
      Owned u own' fl' → Clean own₀ own' fl₀ fl' d sz' g → Q (some sz') { x with phys := u }) :
    Post (execLoad (imageOps file fuel) (d * 4096) () k off sz) E Q x := by
  induction k generalizing x own fl off sz with
  | zero => exact post_pure.mpr (hload sz rfl own fl x.phys h hc)
  | succ k ih =>
      have hkept : loadPlan (file.getD []) g (k + 1) off sz = .fail → Q none x := fun hp =>
        hfail hp own fl x.phys sz h hc.building hc.kept
      rw [loadPlan] at hstop hlost hfail hload hkept
      rw [execLoad, imageOps_readi, post_bind, post_pure]
      dsimp only at hstop hlost hfail hload hkept ⊢
      generalize readAt (file.getD []) off PROGHDR = rd at hstop hlost hfail hload hkept
      obtain ⟨r, bytes⟩ := rd
      dsimp only at hstop hlost hfail hload hkept ⊢
      generalize proghdrOf bytes = ph at hstop hlost hfail hload hkept
      by_cases hread : toUint r ≠ PROGHDR
      · rw [if_pos hread, post_pure]
        exact hkept (if_pos hread)
      rw [if_neg hread] at hstop hlost hfail hload hkept ⊢
      by_cases htype : ph.type ≠ ELF_PROG_LOAD
      · rw [if_pos htype] at hstop hlost hfail hload ⊢
        exact ih h hc hstop hlost hfail hload
      rw [if_neg htype] at hstop hlost hfail hload hkept ⊢
      by_cases hmem : ph.memsz < ph.filesz
      · rw [if_pos hmem, post_pure]
        exact hkept (if_pos hmem)
      rw [if_neg hmem] at hstop hlost hfail hload hkept ⊢
      generalize (ph.va + ph.memsz) % 4294967296 = newsz at hstop hlost hfail hload hkept
      rw [imageOps_allocuvm, post_bind, post_onPhys]
      by_cases htop : newsz > USERTOP
      · refine post_allocuvm h hc.shape hc.le (by omega) hfuel (fun _ => ?_) fun hle => ?_
        · rw [if_pos rfl, post_pure]
          exact hkept (if_pos htop)
        · omega
      rw [if_neg htop] at hstop hlost hfail hload hkept
      by_cases hzero : newsz = 0
      · rw [if_pos hzero] at hstop
        rw [hzero]
        exact post_allocuvm_zero h hc.shape.dir (by omega) (hstop rfl _) (hstop rfl _)
      rw [if_neg hzero] at hstop hlost hfail hload hkept
      rw [hc.left] at hstop hlost hfail hload hkept
      refine post_allocuvm h hc.shape hc.le (by omega) hfuel (fun hbig => absurd hbig htop)
        fun htop' ok u hgrow => ?_
      have hval : (if newsz > sz then newsz else sz) = max sz newsz := by
        split <;> omega
      rw [hval]
      cases hgrow with
      | done hu hfl hlen huses hshape =>
          have hlen' : ¬ fl.length < cost (pagesOf sz) (tablesFor (pagesOf sz)) (pagesOf newsz) := by
            rw [hfl, List.length_append]
            omega
          rw [if_neg hlen'] at hstop hlost hfail hload hkept
          have hc' := hc.grow h₀ h hfl hlen huses htop' hshape
          rw [if_pos rfl, if_neg (by omega), post_bind, loaduvm]
          by_cases halign : ph.va % PGSIZE ≠ 0
          · rw [if_pos halign] at hstop ⊢
            exact post_stop.mpr (hstop rfl _)
          rw [if_neg halign] at hstop hlost hfail hload hkept ⊢
          rw [tablesFor_max] at hshape
          refine post_loaduvmLoop_plan hu hshape (by unfold PGSIZE at halign; omega) rfl
            (fun hnone => ?_) fun r w hr hw => ?_
          · rw [hnone] at hstop
            exact hstop rfl _
          · rw [hr] at hstop hlost hfail hload hkept
            cases r with
            | false =>
                rw [if_neg (by simp), post_pure]
                exact hfail rfl _ _ w _ hw hc'.building hc'.kept
            | true =>
                rw [if_pos rfl]
                exact ih hw hc' hstop hlost hfail hload
      | short hu hlen htab hoff hon hshape =>
          rw [if_pos hlen, if_neg htab] at hfail
          rw [if_neg Bool.false_ne_true, if_pos rfl, post_pure]
          refine hfail rfl _ _ u sz hu ⟨hc.built.touch h₀ (h.touch_of_free hoff fun p hp => ?_),
            hshape.dir, hshape.bounded, hc.le⟩ fun p hp hheld => ?_
          · exact (hon p hp).imp_right .inr
          · by_cases hpf : p ∈ fl
            · have := hon p hpf
              rw [hheld] at this
              rcases this with this | this <;> cases this
            · rw [hoff p hpf] at hheld
              exact hc.kept p hp hheld
      | leak hu htab hoff hon hp hheld hshape hr =>
          rw [if_pos htab.lt_cost, if_pos htab] at hstop hlost
          cases ok with
          | false =>
              obtain ⟨hb, hex⟩ := hc.building.of_leak h₀ h hc.le hoff hon hshape hr.1.le hp hheld
              rw [if_neg Bool.false_ne_true, if_pos rfl, post_pure]
              exact hlost rfl _ _ u sz none hu hb hex (.inl rfl)
          | true =>
              obtain ⟨rfl, hn', -, -⟩ := hr
              have hn : pagesOf newsz ≤ pagesOf (max sz newsz) := by
                unfold pagesOf
                omega
              obtain ⟨hb, hex⟩ := hc.building.of_leak h₀ h (max_le hc.le htop') hoff hon hshape
                (by omega) hp hheld
              rw [if_pos rfl, if_neg (by omega), post_bind, loaduvm]
              split
              · exact post_stop.mpr (hstop rfl _)
              · rename_i halign
                refine post_loaduvmLoop hu hb.dir (by unfold PGSIZE at halign; omega) rfl
                  (hstop rfl _) fun r w hw => ?_
                split
                · refine (post_execLoad_doomed (by omega) hw hb
                    fun r w' sz' hw' hb' hr => ?_).mono (fun e _ => hstop rfl e) fun _ _ hq => hq
                  exact hlost rfl _ _ w' sz' r hw' hb' hex (hr.imp_right fun h => ⟨h, rfl⟩)
                · exact post_pure.mpr (hlost rfl _ _ w _ none hw hb hex (.inl rfl))

/-! ## The stack -/

variable {path : List UInt8} {argv : List (List UInt8)} {Q : Int → ExecState → Prop}

/-- Without room or memory for the stack page, `exec` releases the inode a second time. -/
theorem post_execStack_short {sz entry : Nat} (hfuel : 524288 < fuel) (h : Owned x.phys own fl)
    (hb : Building own₀ own fl₀ d sz) (hshort : pagesOf sz = 524288 ∨ fl = [])
    (hbusy : x.busy = false) (hE : E (.panic "iunlock")) :
    Post (execStack (imageOps file fuel) (d * 4096) () sz path argv entry) E Q x := by
  have hpages := pagesOf_le hb.le
  have hround : pagesOf (pagesOf sz * 4096) = pagesOf sz := by
    unfold pagesOf
    omega
  have hnew : (pagesOf sz * 4096 + PGSIZE) % 4294967296 = pagesOf sz * 4096 + 4096 := by
    unfold PGSIZE
    omega
  have hbad : ∀ u, Owned u own fl → Post (execBad (imageOps file fuel) (some (d * 4096)) ()) E Q
      { x with phys := u } := fun u hu =>
    post_execBad (x := { x with phys := u }) (fun _ => hE) hfuel hu hb fun hb' => by
      cases hbusy.symm.trans hb'
  rw [execStack, pgroundup_of_le hb.le]
  dsimp only
  rw [imageOps_allocuvm, post_bind, post_onPhys, hnew]
  rcases hshort with hfull | rfl
  · rw [allocuvm, if_pos (by unfold USERTOP; omega), post_pure, if_pos rfl]
    exact hbad x.phys h
  · refine post_allocuvm_nomem h hb.dir (by rw [hround]; exact hb.bounded) (by unfold USERTOP; omega)
      (Nat.succ_pos _) hfuel (fun u hu => ?_) fun hle => ?_
    · rw [if_pos rfl]
      exact hbad u hu
    · unfold pagesOf at hle
      omega

/-- The allocation of the stack page, with room and memory for it. If there is one page and it needs
a page table, the page is lost and the address space has a hole. -/
theorem post_allocStack_plan {sz bottom : Nat} (h₀ : Owned s₀ own₀ fl₀) (hfuel : 1048576 < fuel)
    (h : Owned s own fl) (hc : Clean own₀ own fl₀ fl d sz g) (hroom : pagesOf sz < 524288)
    (hfl : 0 < fl.length) (hbottom : bottom = pagesOf sz * 4096) :
    Post (allocuvm fuel (d * 4096) bottom ((bottom + PGSIZE) % 4294967296)) E
      (fun r u => r = bottom + 4096 ∧ ∃ own' fl', Owned u own' fl' ∧ Building own₀ own' fl₀ d r ∧
        (¬ (fl.length = 1 ∧ pagesOf sz % 1024 = 0) → ∃ k, Shape own' d (pagesOf r) k) ∧
        (fl.length = 1 ∧ pagesOf sz % 1024 = 0 → ∀ q, own' q ≠ .page d (pagesOf sz))) s := by
  have hround : pagesOf bottom = pagesOf sz := by
    unfold pagesOf at hbottom ⊢
    omega
  have hnext : pagesOf (bottom + 4096) = pagesOf sz + 1 := by
    unfold pagesOf at hbottom ⊢
    omega
  have htop : bottom + 4096 ≤ USERTOP := by
    unfold USERTOP
    omega
  have hnew : (bottom + PGSIZE) % 4294967296 = bottom + 4096 := by
    unfold PGSIZE
    unfold USERTOP at htop
    omega
  have hpos : 0 < bottom + 4096 := by omega
  have hgt : bottom < bottom + 4096 := by omega
  rw [hnew]
  generalize bottom + 4096 = newsz at hnext htop hpos hgt
  refine post_allocuvm h (by rw [hround]; exact hc.shape) (by omega) hpos hfuel (fun hbig => ?_)
    fun _ r u hgrow => ?_
  · omega
  rw [hround, hnext] at hgrow
  rw [if_pos hgt]
  cases hgrow with
  | done hu hused hlen huses hshape =>
      rw [max_eq_right (Nat.le_succ _), Nat.succ_eq_add_one, ← hnext] at hshape
      rw [if_pos rfl]
      refine ⟨rfl, _, _, hu, ⟨hc.built.touch h₀ (huses.touch h hused), hshape.dir, hshape.bounded,
        htop⟩, fun _ => ⟨_, hshape⟩, fun hone => ?_⟩
      rw [hused, List.length_append, hlen] at hone
      unfold cost tablesFor at hone
      omega
  | short hu hlen htab hoff hon hshape =>
      -- the only page would have been needed for the table
      refine absurd ⟨tablesFor (pagesOf sz), le_rfl, ?_⟩ htab
      unfold cost tablesFor at hlen
      unfold tablesFor
      omega
  | leak hu htab hoff hon hp hheld hshape hr =>
      obtain ⟨j, hj⟩ := htab
      have hlast : LastTableShort fl.length (pagesOf sz) (tablesFor (pagesOf sz)) (pagesOf sz + 1) := by
        unfold LastTableShort cost
        unfold tablesFor at hj ⊢
        omega
      cases r with
      | false => exact absurd hlast hr.2
      | true =>
          rw [if_pos rfl]
          refine ⟨rfl, _, _, hu, (hc.building.of_leak h₀ h htop hoff hon hshape ?_ hp hheld).1,
            fun hno => absurd ?_ hno, fun _ q hq => ?_⟩
          · rw [hnext]
            exact Nat.le_of_succ_le hr.2.1.le
          · unfold tablesFor at hj
            omega
          · have hlt := (hshape.pages _).mp ⟨q, hq⟩
            have hsize := hr.2.1
            omega

/-- **What `exec` has stored for its arguments** when the segments have the size `sz`: the stores are
still there outside the old address space `d₀`. If there was memory for the stack page but not for
its table, the stack page is missing. -/
structure ArgsStored (own' : Nat → Owner) (d d₀ sz : Nat) (short : Prop) (argv : List (List UInt8))
    (u : Phys) (sz' sgr : Nat) : Prop where
  size : sz' = pagesOf sz * 4096 + 4096
  argp : sgr = argpOf sz' argv
  stores : ∃ m, ∀ q, own' q = .page d (pagesOf sz) → KeepsOthers own' d₀
    (applyStores m (argStores (q * 4096) (pagesOf sz * 4096) sz' argv)) u.mem
  hole : short → ∀ q, own' q ≠ .page d (pagesOf sz)

/-- **The second half of `exec`** with room and memory for the stack page. -/
theorem post_execStack_plan {sz entry d₀ n₀ : Nat} (h₀ : Owned s₀ own₀ fl₀) (hfuel : 1048576 < fuel)
    (h : Owned x.phys own fl) (hc : Clean own₀ own fl₀ fl d sz g) (hroom : pagesOf sz < 524288)
    (hfl : 0 < fl.length) (hargs : ArgsFit argv) (hpgdir : x.pgdir = d₀ * 4096)
    (hd₀ : own₀ d₀ = .dir) (hb₀ : Bounded own₀ d₀ n₀) (hn₀ : n₀ ≤ 524288)
    (hQ : ∀ own' fl' u sz' name spc sgr, Building own₀ own' fl₀ d sz' → 0 < sz' →
      (¬ (fl.length = 1 ∧ pagesOf sz % 1024 = 0) → ∃ k, Shape own' d (pagesOf sz') k) →
      Owned u (released own' d₀) fl' →
      ArgsStored own' d d₀ sz (fl.length = 1 ∧ pagesOf sz % 1024 = 0) argv u sz' sgr →
      Q 0 ⟨u, x.ref, x.busy, d * 4096, sz', name, spc, sgr⟩) :
    Post (execStack (imageOps file fuel) (d * 4096) () sz path argv entry) E Q x := by
  have hfuel' : 524288 < fuel := by omega
  have hstack := post_allocStack_plan (E := E) h₀ hfuel h hc hroom hfl rfl
  rw [execStack, pgroundup_of_le hc.le]
  dsimp only
  rw [imageOps_allocuvm, post_bind, post_onPhys]
  refine hstack.mono (fun _ he => he) fun r u hr => ?_
  obtain ⟨rfl, own', fl', hu, hb', hshape, hhole⟩ := hr
  rw [if_neg (Nat.succ_ne_zero _)]
  exact post_execArgs (x := { x with phys := u }) h₀ hfuel' hu hb' hargs hpgdir hd₀ hb₀ hn₀
    fun q u' fl'' hu' _ honly hstores => hQ own' fl'' u' _ _ _ _ hb' (Nat.succ_pos _) hshape hu'
      ⟨rfl, rfl, ⟨u.mem, fun q' hq' => by rw [honly q' hq']; exact hstores⟩, hhole⟩

/-! ## The whole call -/

/-- The empty address space after `setupkvm`. -/
theorem Clean.empty (h₀ : Owned s₀ own₀ fl₀) (hfl : fl₀ = d :: fl)
    (hshape : Shape (Function.update own₀ d .dir) d 0 0)
    (hbuilt : Built own₀ (Function.update own₀ d .dir) fl₀ d) :
    Clean own₀ (Function.update own₀ d .dir) fl₀ fl d 0 (fl₀.length - 1) := by
  refine ⟨hbuilt, hshape, Nat.zero_le _, fun p hp => ?_, ?_⟩
  · by_cases hpd : p = d
    · rw [hpd, Function.update_self]
      exact Owner.noConfusion
    · rw [Function.update_of_ne hpd, (h₀.free p).mp hp]
      exact Owner.noConfusion
  · rw [hfl]
    rfl

/-- A page that is lost stays lost when the new address space is released. -/
theorem Building.released_held {sz p : Nat} (hb : Building own₀ own fl₀ d sz)
    (hp : own p = .held) : released own d p = .held := by
  have hpd : p ≠ d := by
    rintro rfl
    cases hp.symm.trans hb.dir
  rw [released, hp]
  simp [Owner.ofSpace, hpd]

/-- If no page is lost, releasing the new address space restores the owners. -/
theorem Building.released_eq {sz : Nat} (h₀ : Owned s₀ own₀ fl₀) (hb : Building own₀ own fl₀ d sz)
    (hkept : ∀ p ∈ fl₀, own p ≠ .held) : released own d = own₀ := by
  funext p
  rcases hb.built.released_eq h₀ p with he | ⟨hp, -, hheld, -⟩
  · exact he
  · exact absurd hheld (hkept p hp)

/-- There is one page for the stack page and its page table. -/
def StackShort (f sz : Nat) : Prop := pagesLeft (f - 1) sz = 1 ∧ pagesOf sz % 1024 = 0

/-- **`exec` ends as planned.** -/
theorem post_execImage_plan {d₀ n₀ : Nat} (h : Owned x.phys own fl) (hfuel : 1048576 < fuel)
    (hargs : ∀ sz, execPlan file fl.length = .loaded sz → ArgsFit argv) (hbusy : x.busy = false)
    (hpgdir : x.pgdir = d₀ * 4096) (hd₀ : own d₀ = .dir) (hb₀ : Bounded own d₀ n₀)
    (hn₀ : n₀ ≤ 524288) (hstop : execPlan file fl.length = .doomed → ∀ e, E e)
    (hlost : execPlan file fl.length = .doomed → ∀ own' fl' u, Owned u own' fl' → Lost own own' →
      (∃ p, own p = .free ∧ own' p = .held) → Q (-1) { x with phys := u })
    (hfail : execPlan file fl.length = .fail → ∀ fl' u, Owned u own fl' →
      Q (-1) { x with phys := u })
    (hload : ∀ sz, execPlan file fl.length = .loaded sz → ∀ own' fl' u d sz' name spc sgr,
      Building own own' fl d sz' → 0 < sz' →
      (¬ StackShort fl.length sz → ∃ k, Shape own' d (pagesOf sz') k) →
      Owned u (released own' d₀) fl' →
      ArgsStored own' d d₀ sz (StackShort fl.length sz) argv u sz' sgr →
      Q 0 ⟨u, x.ref, x.busy, d * 4096, sz', name, spc, sgr⟩) :
    Post (execImage file fuel path argv) E Q x := by
  have hfuel' : 524288 < fuel := by omega
  obtain ⟨phys, ref, busy, pgdir, sz, name, spc, sgr⟩ := x
  dsimp only at h hbusy hpgdir hlost hfail hload
  subst hbusy
  unfold execImage exec
  rw [post_bind]
  cases file with
  | none => exact post_pure.mpr (post_pure.mpr (hfail rfl fl phys h))
  | some content =>
      -- the inode is locked and its reference counted from here on
      have hnopgdir : execPlan (some content) fl.length = .fail →
          Post (execBad (imageOps (some content) fuel) none ()) E Q
          ⟨phys, ref + 1, true, pgdir, sz, name, spc, sgr⟩ := by
        intro hp
        simp only [execBad, imageOps, unlockputInode, post_bind, post_pure, post_get]
        rw [if_neg (by simp), post_modify]
        exact hfail hp fl phys h
      have hlate : ∀ own' fl' u sz' d, Owned u own' fl' → Building own own' fl d sz' →
          (∀ fl'' w, Owned w (released own' d) fl'' →
            Q (-1) ⟨w, ref, false, pgdir, sz, name, spc, sgr⟩) →
          Post (execBad (imageOps (some content) fuel) (some (d * 4096)) ()) E Q
            ⟨u, ref + 1, true, pgdir, sz, name, spc, sgr⟩ := fun own' fl' u sz' d hu hb hq =>
        post_execBad (fun hno => by simp at hno) hfuel' hu hb fun _ w fl'' hw => hq fl'' w hw
      have hlock : (imageOps (some content) fuel).ilock () = lockInode := rfl
      have hunlock : (imageOps (some content) fuel).iunlockput () = unlockputInode := rfl
      have hsetup : (imageOps (some content) fuel).setupkvm = onPhys setupkvm := rfl
      rw [execPlan] at hstop hlost hfail hload hargs hnopgdir
      refine post_bind.mpr (post_modify.mpr (post_pure.mpr ?_))
      dsimp only
      rw [hlock, post_bind, lockInode, post_bind, post_get, if_neg (by simp), if_neg (by simp),
        post_modify, imageOps_readi, post_bind, post_pure, Option.getD_some]
      generalize readAt content 0 ELFHDR = rd at hstop hlost hfail hload hargs hnopgdir
      obtain ⟨r, bytes⟩ := rd
      dsimp only at hstop hlost hfail hload hargs hnopgdir ⊢
      by_cases hread : toUint r < ELFHDR
      · rw [if_pos hread] at hnopgdir ⊢
        exact hnopgdir rfl
      rw [if_neg hread] at hstop hlost hfail hload hargs hnopgdir ⊢
      by_cases hmagic : (elfhdrOf bytes).magic ≠ ELF_MAGIC
      · rw [if_pos hmagic] at hnopgdir ⊢
        exact hnopgdir rfl
      rw [if_neg hmagic] at hstop hlost hfail hload hargs hnopgdir ⊢
      rw [hsetup, post_bind, post_onPhys]
      refine post_setupkvm h (fun hnil => ?_) fun d fl' u hfl hu hshape hbuilt _ => ?_
      · rw [if_pos (by rw [hnil]; rfl)] at hnopgdir
        exact hnopgdir rfl
      have hpos : fl.length ≠ 0 := by
        rw [hfl]
        exact Nat.succ_ne_zero _
      rw [if_neg hpos] at hstop hlost hfail hload hargs
      dsimp only
      rw [post_bind]
      refine post_execLoad_plan (x := ⟨u, ref + 1, true, pgdir, sz, name, spc, sgr⟩) h hfuel hu
        (Clean.empty h hfl hshape hbuilt) (fun hp => ?_) (fun hp own' fl'' w sz' r hw hb hex hr => ?_)
        (fun hp own' fl'' w sz' hw hb hkept => ?_) fun sz' hp own' fl'' w hw hc => ?_
      · rw [Option.getD_some] at hp
        rw [hp] at hstop
        exact hstop rfl
      · rw [Option.getD_some] at hp
        rw [hp] at hstop hlost
        rcases hr with rfl | ⟨rfl, rfl⟩
        · refine hlate own' fl'' w sz' d hw hb fun fl₃ w' hw' => ?_
          obtain ⟨p, hp, hheld⟩ := hex
          exact hlost rfl _ fl₃ w' hw' (hb.lost h) ⟨p, (h.free p).mp hp, hb.released_held hheld⟩
        · dsimp only
          rw [hunlock, post_bind, unlockputInode, post_bind, post_get, if_neg (by simp), post_modify]
          exact post_execStack_short hfuel' hw hb (.inr rfl) rfl (hstop rfl _)
      · rw [Option.getD_some] at hp
        rw [hp] at hfail
        refine hlate own' fl'' w sz' d hw hb fun fl₃ w' hw' => ?_
        rw [hb.released_eq h hkept] at hw'
        exact hfail rfl fl₃ w' hw'
      · rw [Option.getD_some] at hp
        rw [hp, Plan.withStack] at hstop hload hargs
        dsimp only
        rw [hunlock, post_bind, unlockputInode, post_bind, post_get, if_neg (by simp), post_modify]
        by_cases hroom : pagesOf sz' < 524288 ∧ 0 < pagesLeft (fl.length - 1) sz'
        · rw [if_pos hroom] at hload hargs
          rw [hc.left] at hroom
          refine post_execStack_plan h hfuel hw hc hroom.1 hroom.2 (hargs sz' rfl) hpgdir hd₀ hb₀ hn₀
            fun own'' fl₃ w' sz'' name spc sgr hb hpos' hshape' hw' hstored =>
              hload sz' rfl own'' fl₃ w' d sz'' name spc sgr hb hpos' ?_ hw' ?_
          · rw [StackShort, hc.left]
            exact hshape'
          · rw [StackShort, hc.left]
            exact hstored
        · rw [if_neg hroom] at hstop
          rw [hc.left] at hroom
          have hpages := pagesOf_le hc.le
          refine post_execStack_short hfuel' hw hc.building ?_ rfl (hstop rfl _)
          rcases Nat.lt_or_ge (pagesOf sz') 524288 with hlt | hge
          · right
            exact List.eq_nil_of_length_eq_zero (by omega)
          · left
            omega

end

end Xv6.Vm

import Xv6.Mem.Atomic

/-! # Address spaces and sizes

The page table of a process maps exactly the pages below its size, except after three calls: `sbrk`
by minus the size or up to a page below it frees all pages and leaves the size, and `sbrk` or `exec`
that run out of memory exactly at the page table of the last page leave a hole at the top. -/

namespace Xv6.Mem

open Lib Run Vm

/-- **The address spaces have the sizes of their processes**, and share no page. -/
structure MapsSizes (s : Sys) : Prop where
  pages : ∀ p, s.Used p → ∀ v,
    (∃ a, s.InUse (.user (some p) v) a) ↔ v * PGSIZE < pgroundup (s.proc p).sz
  once : ∀ p v a u, s.InUse (.user (some p) v) a → s.InUse u a → u = .user (some p) v

/-- The directory of a process has the first `k` page tables. -/
def Sys.Tables (s : Sys) (p : Pid) (k : Nat) : Prop :=
  ∀ i, (∃ a, s.InUse (.table (some p) i) a) ↔ i < k

/-- **The calls that keep size and page table in step**, with `f` free pages. -/
def Sys.Keeps (s : Sys) (p : Pid) (f : Nat) : Call → Prop
  | .sbrk n =>
      if 0 < n.toInt then
        ∀ k, s.Tables p k → (s.proc p).sz + n.toInt.toNat ≤ USERTOP →
          ¬ LastTableShort f (pagesOf (s.proc p).sz) k (pagesOf ((s.proc p).sz + n.toInt.toNat))
      else -n.toInt < (s.proc p).sz ∨ (s.proc p).sz + 4096 ≤ -n.toInt
  | .exec file _ argv => ∀ sz, execPlan file f = .loaded sz → ArgsFit argv ∧ ¬ StackShort f sz
  | _ => True

/-- The call keeps size and page table in step in a state. -/
def Safe (s : Sys) (x : Pid × Call) : Prop :=
  ∀ fl, FreeChain s.phys.mem s.phys.freelist fl → s.Keeps x.1 fl.length x.2

section

variable {e : KernelEnd} {s t : Sys} {own own' : Nat → Owner} {fl fl' : List Nat}
  {role : Nat → Option Anchor} {E : Stop → Prop}

/-! ## The calls -/

theorem tables_iff (h : SysInv e True s own fl role) {p : Pid} (hp : s.Used p) {n k : Nat}
    (hshape : Shape own ((s.proc p).pgdir / 4096) n k) : s.Tables p k := by
  obtain ⟨halign, -, hown⟩ := h.pgdir hp
  intro i
  rw [← hshape.tabs i]
  simp only [inUse_table_iff h.owned hp halign hown]
  constructor
  · rintro ⟨a, t, -, ht⟩
    exact ⟨t, ht⟩
  · rintro ⟨t, ht⟩
    exact ⟨t * 4096, t, rfl, ht⟩

/-- The first page that is freed when a process shrinks by a safe amount. -/
theorem keptPages_of_safe {sz : Nat} {n : Int} (hpos : 0 < sz) (hsz : sz ≤ USERTOP) (hn : n ≤ 0)
    (hn' : -2147483648 ≤ n) (hsafe : -n < sz ∨ sz + 4096 ≤ -n) :
    0 < min (toUint (sz + n)) sz ∧ (keptPages sz n = pagesOf (min (toUint (sz + n)) sz) ∨
      pagesOf sz ≤ keptPages sz n ∧ min (toUint (sz + n)) sz = sz) := by
  unfold USERTOP at hsz
  rcases hsafe with hlt | hge
  · have huint : toUint (sz + n) = (sz + n).toNat := by
      unfold toUint
      omega
    rw [min_eq_left (by omega)]
    refine ⟨by omega, .inl ?_⟩
    rw [keptPages, pgroundup_of_le (by unfold USERTOP; omega), Nat.mul_div_cancel _ (by decide)]
  · have huint : toUint (sz + n) = (4294967296 + (sz + n)).toNat := by
      unfold toUint
      omega
    rw [min_eq_right (by omega)]
    refine ⟨hpos, .inr ⟨?_, rfl⟩⟩
    unfold keptPages pagesOf pgroundup PGSIZE
    omega

/-- **`sbrk`** by a safe amount. -/
theorem SysInv.sbrk_keeps (h : SysInv e True s own fl role) {p : Pid} (hp : s.Used p)
    (n : BitVec 32) (hsafe : s.Keeps p fl.length (.sbrk n)) {fuel : Nat} (hfuel : 1048576 < fuel) :
    Post (sysSbrk fuel p n.toInt) E (fun _ t => Inv e True t) s := by
  obtain ⟨halign, -, hown⟩ := h.pgdir hp
  obtain ⟨hb, hpos, hsz, hfull⟩ := h.space p hp
  obtain ⟨k, hshape⟩ := hfull trivial
  have hlow := BitVec.le_toInt n
  have hhigh := BitVec.toInt_lt (x := n)
  have htables := tables_iff h hp hshape
  rw [Mem.sysSbrk, post_bind, post_get, post_bind, post_onPhys]
  have hdone : ∀ own' fl' u sz k' (r : Int), Owned u own' fl' →
      Touch own own' ((s.proc p).pgdir / 4096) →
      Shape own' ((s.proc p).pgdir / 4096) (pagesOf sz) k' → 0 < sz → sz ≤ USERTOP →
      Post (do
        setProc p fun x => { x with sz := sz }
        pure (decide (r = 0))) E (fun _ t => Inv e True t) (s.putPhys u) := by
    intro own' fl' u sz k' r hu ht hshape' hpos' hsz'
    rw [post_bind, post_setProc, post_pure]
    exact ⟨own', fl', role, h.touch hp hu ht ⟨hshape'.bounded, hpos', hsz', fun _ => ⟨k', hshape'⟩⟩⟩
  generalize hd : (s.proc p).pgdir / 4096 = d at halign hown hb hshape hdone
  rw [halign]
  by_cases hn : 0 < n.toInt
  · rw [Sys.Keeps, if_pos hn] at hsafe
    refine post_growproc_shape h.owned hshape hsz hn (by omega) hfuel (hsafe k htables)
      (fun hle own' fl' u k' hu ht hshape' => ?_) fun own' fl' u k' hu ht hshape' => ?_
    · exact hdone own' fl' u _ k' _ hu ht hshape' (by omega) hle
    · exact hdone own' fl' u _ k' _ hu ht hshape' hpos hsz
  · rw [Sys.Keeps, if_neg hn] at hsafe
    refine post_growproc_neg h.owned hown hb hpos hsz (by omega) (by omega) (by omega)
      fun u fl' hu => ?_
    obtain ⟨hmin, hkept⟩ := keptPages_of_safe hpos hsz (by omega) (by omega) hsafe
    rw [if_neg (by omega)]
    refine hdone _ fl' u _ k _ hu (.freed own d _ _) ?_ hmin (by omega)
    rcases hkept with hkept | ⟨hge, hsame⟩
    · rw [hkept]
      refine hshape.freed le_rfl ?_
      unfold pagesOf
      omega
    · rw [freed_empty hge, hsame]
      exact hshape

/-- **`exec`** whose arguments fit and whose stack page gets a page table. -/
theorem SysInv.exec_keeps (h : SysInv e True s own fl role) {p : Pid} (hp : s.Used p)
    (file : Option (List UInt8)) (path : List UInt8) (argv : List (List UInt8))
    (hsafe : s.Keeps p fl.length (.exec file path argv)) {fuel : Nat} (hfuel : 1048576 < fuel) :
    Post (execFile fuel p file path argv) (fun _ => True) (fun _ t => Inv e True t) s := by
  obtain ⟨halign, -, hown⟩ := h.pgdir hp
  obtain ⟨hb, hpos, hsz, -⟩ := h.space p hp
  have hsame : ∀ own' fl' u, Owned u own' fl' → Lost own own' →
      Inv e True (execDone p { execView p s with phys := u } s) := fun own' fl' u hu hlost =>
    ⟨own', fl', role, (h.lost hu hlost).congr (.putProc fun hused => ⟨hused, rfl, rfl, rfl⟩)⟩
  rw [Mem.execFile, post_bind, post_zoom]
  refine post_execImage_plan (x := execView p s) h.owned hfuel (fun sz hl => (hsafe sz hl).1) rfl
    halign hown hb (pagesOf_le hsz) (fun _ _ => trivial) (fun _ own' fl' u hu hlost _ => ?_)
    (fun _ fl' u hu => ?_) fun sz hl own' fl' u d sz' name spc sgr hbuild hpos' hfull hu _ => ?_
  · exact post_pure.mpr (hsame own' fl' u hu hlost)
  · exact post_pure.mpr (hsame own fl' u hu fun _ => .inl rfl)
  · exact post_pure.mpr (h.replace hp hbuild hpos' (fun _ => hfull (hsafe sz hl).2) hu)

/-! ## Runs -/

/-- **A safe call keeps all address spaces whole.** -/
theorem Inv.run_safe (h : Inv e True s) {p : Pid} (hp : s.Live p) {c : Call} (hc : Safe s (p, c))
    (fuel : Nat) : Post (c.run fuel p) (fun _ => True) (fun _ t => Inv e True t) s := by
  have hinv := h
  obtain ⟨own, fl, role, h⟩ := h
  have hkeeps := hc fl h.owned.chain
  have hfuel : 1048576 < max fuel 1048577 := by omega
  refine (le_run (le_max_left fuel 1048577) p c).post trivial ?_
  cases c with
  | fork => exact hinv.fork hp.1 (by omega) trivial fun hno => absurd trivial hno
  | exec file path argv => exact h.exec_keeps hp.1 file path argv hkeeps hfuel
  | sbrk n => exact h.sbrk_keeps hp.1 n hkeeps hfuel
  | pipe => exact (hinv.sysPipe p).mono (fun _ _ => trivial) fun _ _ ht => ht
  | close fd => exact (hinv.sysClose p fd).mono (fun _ _ => trivial) fun _ _ ht => ht
  | exit =>
      rw [Call.run, post_bind]
      exact (hinv.exit hp.1).mono (fun _ _ => trivial) fun _ t ht => post_pure.mpr ht
  | wait => exact (hinv.wait p (by omega)).mono (fun _ _ => trivial) fun _ _ ht => ht

theorem MemRun.inv_safe {tr : List (Sys × Pid × Call)} (hrun : MemRun e tr s)
    (hmem : e.page + 6 ≤ PHYSTOP / PGSIZE) (hsafe : ∀ x ∈ tr, Safe x.1 x.2) :
    ∀ x ∈ visited tr s, Inv e True x := by
  obtain ⟨s₀, hboot, hexec⟩ := hrun
  refine @Exec.forall_visited_of_ok _ _ _ (Inv e True) Safe ?_ _ _ _ hexec
    (hboot.inv fun _ => hmem) hsafe
  rintro t ⟨p, c⟩ u ht hx ⟨hlive, fuel, r, hcall⟩
  exact (ht.run_safe hlive hx fuel).of_eq_ok hcall

/-- The invariant says that the address spaces have the sizes of their processes. -/
theorem Inv.mapsSizes (h : Inv e True s) : MapsSizes s := by
  obtain ⟨own, fl, role, h⟩ := h
  refine ⟨fun p hp v => ?_, fun p v a u ha hu => h.exclusive.once _ _ a hu ha⟩
  obtain ⟨halign, -, hown⟩ := h.pgdir hp
  obtain ⟨-, -, hsz, hfull⟩ := h.space p hp
  obtain ⟨k, hshape⟩ := hfull trivial
  have hlt : v * PGSIZE < pgroundup (s.proc p).sz ↔ v < pagesOf (s.proc p).sz := by
    rw [pgroundup_of_le hsz]
    unfold PGSIZE
    omega
  rw [hlt, ← hshape.pages v]
  simp only [inUse_user_iff h.owned hp halign hown]
  constructor
  · rintro ⟨a, x, -, hx⟩
    exact ⟨x, hx⟩
  · rintro ⟨x, hx⟩
    exact ⟨x * 4096, x, rfl, hx⟩

/-- In whole address spaces `fork` does not panic in `copyuvm`. -/
theorem Inv.fork_not_panics (h : Inv e True s) (p : Pid) {msg : String}
    (hmsg : msg = "copyuvm: pte should exist\n" ∨ msg = "copyuvm: page not present\n") :
    ¬ Panics s (p, .fork) msg := by
  rintro ⟨hlive, fuel, hcall⟩
  have hpost : Post (Call.run (max fuel 524289) p .fork) (fun x => x ≠ .panic msg)
      (fun _ t => Inv e True t) s := by
    refine h.fork hlive.1 (by omega) ?_ fun hno => absurd trivial hno
    rcases hmsg with rfl | rfl <;> simp
  exact ((le_run (le_max_left fuel 524289) p .fork).post nofun hpost).of_eq_error hcall rfl

/-- **Size and page table stay in step**, and `copyuvm` does not panic, in every run in which there is
memory for the first process and every call is safe. -/
theorem mapsSizes_of_safe {tr : List (Sys × Pid × Call)} (hrun : MemRun e tr s)
    (hmem : e.page + 6 ≤ PHYSTOP / PGSIZE) (hsafe : ∀ x ∈ tr, Safe x.1 x.2) :
    ∀ x ∈ visited tr s, MapsSizes x ∧ ∀ p, ¬ Panics x (p, .fork) "copyuvm: pte should exist\n" ∧
      ¬ Panics x (p, .fork) "copyuvm: page not present\n" := by
  intro x hx
  have hinv := hrun.inv_safe hmem hsafe x hx
  exact ⟨hinv.mapsSizes, fun p => ⟨hinv.fork_not_panics p (Or.inl rfl),
    hinv.fork_not_panics p (Or.inr rfl)⟩⟩

end

/-- `initproc` makes a child, which fails to `exec`, makes a pipe and exits. -/
def bearing : List (Pid × Call) :=
  [(initproc, .fork), (child, .exec none [] []), (child, .pipe), (child, .exit)]

/-- A run with several kinds of calls. -/
theorem mapsSizes_bearing :
    ∃ tr s, MemRun megabyte tr s ∧ tr.map Prod.snd = bearing ∧ ∀ x ∈ visited tr s, MapsSizes x ∧
      ∀ p, ¬ Panics x (p, .fork) "copyuvm: pte should exist\n" ∧
        ¬ Panics x (p, .fork) "copyuvm: page not present\n" := by
  have hok : (machine bearing (Sys.zero fun _ => 0)).isOk = true := by decide +kernel
  cases hrun : machine bearing (Sys.zero fun _ => 0) with
  | error x =>
      rw [hrun] at hok
      cases hok
  | ok p =>
      obtain ⟨tr, hmem, hmap⟩ := memRun_of_ok hrun
      refine ⟨tr, p.2, hmem, hmap, mapsSizes_of_safe hmem (by decide) fun x hx => ?_⟩
      have hmem' := List.mem_map_of_mem (f := Prod.snd) hx
      rw [hmap] at hmem'
      simp only [bearing, List.mem_cons, List.not_mem_nil, or_false] at hmem'
      intro fl _
      rcases hmem' with he | he | he | he <;> rw [he]
      · trivial
      · exact nofun
      · trivial
      · trivial

/-- **`sbrk` by a little more than minus the size** succeeds, leaves the size and frees all pages; the
next `fork` panics. -/
theorem sbrk_leaves_size :
    ∃ (e : KernelEnd) (tr : List (Sys × Pid × Call)) (s : Sys),
      MemRun e tr s ∧ tr.map Prod.snd = [(initproc, .sbrk (-4097))] ∧ ¬ MapsSizes s ∧
        Panics s (initproc, .fork) "copyuvm: page not present\n" := by
  have hok : (machine [(initproc, .sbrk (-4097))] (Sys.zero fun _ => 0)).isOk = true := by
    decide +kernel
  have hend : (machine [(initproc, .sbrk (-4097))] (Sys.zero fun _ => 0)).toOption.all (fun r =>
      decide (r.2.Live initproc) && (r.2.proc initproc).sz == 4096 &&
        !firstPageMapped r.2 initproc &&
        panicOf ((Call.fork).run 2000 initproc r.2) == "copyuvm: page not present\n") = true := by
    decide +kernel
  cases hrun : machine [(initproc, .sbrk (-4097))] (Sys.zero fun _ => 0) with
  | error x =>
      rw [hrun] at hok
      cases hok
  | ok r =>
      obtain ⟨tr, hmem, hmap⟩ := memRun_of_ok hrun
      rw [hrun] at hend
      simp only [Except.toOption, Option.all_some, Bool.and_eq_true, decide_eq_true_eq, beq_iff_eq,
        Bool.not_eq_true'] at hend
      obtain ⟨⟨⟨hlive, hsz⟩, hfirst⟩, hpanic⟩ := hend
      refine ⟨megabyte, tr, r.2, hmem, hmap, fun hmaps => ?_, hlive, 2000, ?_⟩
      · obtain ⟨a, -, d, t, ⟨-, rfl⟩, ⟨hd, rfl⟩, ht, -⟩ :=
          (hmaps.pages initproc hlive.1 0).mpr (by rw [hsz]; decide)
        have hboth : firstPageMapped r.2 initproc = true :=
          (Bool.and_eq_true_iff ..).mpr ⟨decide_eq_true hd, decide_eq_true ht⟩
        rw [hfirst] at hboth
        cases hboth
      · exact eq_error_of_panicOf hpanic (by decide)

end Xv6.Mem

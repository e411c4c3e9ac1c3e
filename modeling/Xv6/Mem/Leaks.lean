import Xv6.Mem.Exclusive

/-! # Failed requests for memory

A `fork` or `sbrk` that returns -1 has given back what it took, except in three situations: `fork`
runs out of memory just when `mappages` needs a page table and loses the page to be mapped, `sbrk`
runs out of memory after it has allocated a page table, and `sbrk` by minus the size of the process
frees all its pages and then takes the new size 0 for an error. -/

namespace Xv6.Mem

open Lib Run Vm

/-- The page at an address is on the free list. -/
def Sys.IsFree (s : Sys) (a : Nat) : Prop :=
  ∃ fl, FreeChain s.phys.mem s.phys.freelist fl ∧ ∃ p ∈ fl, a = p * PGSIZE

/-- **Nothing has changed**: the free pages, the processes, their sizes and their mappings. -/
structure Unchanged (s t : Sys) : Prop where
  free : ∀ a, t.IsFree a ↔ s.IsFree a
  used : ∀ q, t.Used q ↔ s.Used q
  sz : ∀ q, s.Used q → (t.proc q).sz = (s.proc q).sz
  maps : ∀ q v a, t.InUse (.user (some q) v) a ↔ s.InUse (.user (some q) v) a

/-- The directory of a process has a page table for the virtual page `v`. -/
def Sys.HasTable (s : Sys) (p : Pid) (v : Nat) : Prop := ∃ a, s.InUse (.table (some p) (v / 1024)) a

/-- **The situations in which a failed call leaks nothing**, with `f` free pages. -/
def Sys.LeakFree (s : Sys) (p : Pid) (f : Nat) : Call → Prop
  | .fork => (∀ q, s.Used q) ∨ (f - 2) % 1025 ≠ 1
  | .sbrk n =>
      if 0 < n.toInt then
        USERTOP < (s.proc p).sz + n.toInt.toNat ∨
          ∀ i < f, s.HasTable p (pagesOf (s.proc p).sz + i)
      else ∀ v a, ¬ s.InUse (.user (some p) v) a
  | _ => False

section

variable {e : KernelEnd} {s t : Sys} {own own' : Nat → Owner} {fl fl' : List Nat}
  {role : Nat → Option Anchor}

/-! ## Reading the owners -/

theorem isFree_iff (h : Owned s.phys own fl) {a : Nat} :
    s.IsFree a ↔ ∃ p, a = p * 4096 ∧ own p = .free := by
  constructor
  · rintro ⟨fl', hchain, p, hp, rfl⟩
    obtain rfl := h.chain.unique hchain
    exact ⟨p, rfl, (h.free p).mp hp⟩
  · rintro ⟨p, rfl, hp⟩
    exact ⟨fl, h.chain, p, (h.free p).mpr hp, rfl⟩

theorem exists_page_iff {P : Nat → Prop} {p : Nat} : (∃ x, p * 4096 = x * 4096 ∧ P x) ↔ P p := by
  constructor
  · rintro ⟨x, hx, h⟩
    obtain rfl : p = x := by omega
    exact h
  · exact fun h => ⟨p, rfl, h⟩

theorem pointsTo_of_entry {m : Nat → UInt8} {p i q : Nat} (h : entry m p i = pteOf q) :
    PointsTo m (p * 4096) i (q * 4096) := by
  have he : le32 m (p * 4096 + 4 * i) = pteOf q := h
  unfold PointsTo
  rw [he, pteOf_and, pteAddr_pteOf]
  exact ⟨by decide, rfl⟩

variable {p : Pid}

/-- The page tables of a process. -/
theorem inUse_table_iff (h : Owned s.phys own fl) (hp : s.Used p) {d : Nat}
    (hpgdir : (s.proc p).pgdir = d * 4096) (hd : own d = .dir) {i a : Nat} :
    s.InUse (.table (some p) i) a ↔ ∃ t, a = t * 4096 ∧ own t = .tab d i := by
  constructor
  · rintro ⟨hi, d', ⟨-, hd'⟩, ha⟩
    rw [← hd', hpgdir] at ha
    exact ha.of_dir h hd hi
  · rintro ⟨t, rfl, ht⟩
    have hi := (h.tabDir t d i ht).2
    refine ⟨hi, d * 4096, ⟨hp, hpgdir⟩, ?_⟩
    rcases h.dir d i hd hi with ⟨t', ht', he⟩ | ⟨hno, -⟩
    · rw [h.tabInj t t' d i ht ht']
      exact pointsTo_of_entry he
    · exact absurd ht (hno t)

/-- The mappings of a process. -/
theorem inUse_user_iff (h : Owned s.phys own fl) (hp : s.Used p) {d : Nat}
    (hpgdir : (s.proc p).pgdir = d * 4096) (hd : own d = .dir) {v a : Nat} :
    s.InUse (.user (some p) v) a ↔ ∃ x, a = x * 4096 ∧ own x = .page d v := by
  have hsplit : 1024 * (v / 1024) + v % 1024 = v := by omega
  constructor
  · rintro ⟨hv, d', t, ⟨-, hd'⟩, ht, ha⟩
    rw [← hd', hpgdir] at ht
    obtain ⟨t, rfl, htab⟩ := ht.of_dir h hd (by omega)
    obtain ⟨x, rfl, hx⟩ := ha.of_tab h htab (by omega)
    rw [hsplit] at hx
    exact ⟨x, rfl, hx⟩
  · rintro ⟨x, rfl, hx⟩
    obtain ⟨t, ht⟩ := h.pageTab x d v hx
    have hi := (h.tabDir t d _ ht).2
    refine ⟨by omega, d * 4096, t * 4096, ⟨hp, hpgdir⟩, ?_, ?_⟩
    · rcases h.dir d _ hd hi with ⟨t', ht', he⟩ | ⟨hno, -⟩
      · rw [h.tabInj t t' d _ ht ht']
        exact pointsTo_of_entry he
      · exact absurd ht (hno t)
    · have htab := h.tab t d _ (v % 1024) ht (by omega)
      rw [hsplit] at htab
      rcases htab with ⟨x', hx', he⟩ | ⟨hno, -⟩
      · rw [h.pageInj x x' d v hx hx']
        exact pointsTo_of_entry he
      · exact absurd hx (hno x)

/-- **When nothing has changed**, in terms of owners: for states that differ in the memory and in
entries of the process table that are not in use. -/
theorem SysInv.unchanged_iff (h : SysInv e False s own fl role) (ht : Owned t.phys own' fl')
    (hused : ∀ q, t.Used q ↔ s.Used q)
    (hproc : ∀ q, s.Used q → (t.proc q).pgdir = (s.proc q).pgdir ∧ (t.proc q).sz = (s.proc q).sz)
    (hdir : ∀ q, s.Used q → own' ((s.proc q).pgdir / 4096) = .dir) :
    Unchanged s t ↔ (∀ p, own' p = .free ↔ own p = .free) ∧ ∀ q, s.Used q → ∀ x v,
      own' x = .page ((s.proc q).pgdir / 4096) v ↔ own x = .page ((s.proc q).pgdir / 4096) v := by
  have hmaps : ∀ q, s.Used q → ∀ v a,
      (t.InUse (.user (some q) v) a ↔ ∃ x, a = x * 4096 ∧ own' x = .page ((s.proc q).pgdir / 4096) v) ∧
      (s.InUse (.user (some q) v) a ↔
        ∃ x, a = x * 4096 ∧ own x = .page ((s.proc q).pgdir / 4096) v) := by
    intro q hq v a
    obtain ⟨halign, -, hown⟩ := h.pgdir hq
    exact ⟨inUse_user_iff ht ((hused q).mpr hq) ((hproc q hq).1.trans halign) (hdir q hq),
      inUse_user_iff h.owned hq halign hown⟩
  constructor
  · intro hun
    refine ⟨fun p => ?_, fun q hq x v => ?_⟩
    · have hfree := hun.free (p * 4096)
      rwa [isFree_iff ht, isFree_iff h.owned, exists_page_iff, exists_page_iff] at hfree
    · have hmap := hun.maps q v (x * 4096)
      rwa [(hmaps q hq v _).1, (hmaps q hq v _).2, exists_page_iff, exists_page_iff] at hmap
  · rintro ⟨hfree, hpage⟩
    refine ⟨fun a => ?_, hused, fun q hq => (hproc q hq).2, fun q v a => ?_⟩
    · rw [isFree_iff ht, isFree_iff h.owned]
      simp only [hfree]
    · by_cases hq : s.Used q
      · rw [(hmaps q hq v a).1, (hmaps q hq v a).2]
        simp only [hpage q hq]
      · have hno : ∀ r : Sys, ¬ r.Used q → ¬ r.InUse (.user (some q) v) a := by
          rintro r hr ⟨-, d, x, ⟨hu, -⟩, -⟩
          exact hr hu
        exact iff_of_false (hno t fun hu => hq ((hused q).mp hu)) (hno s hq)

/-! ## `fork` -/

/-- Entries that are not in use do not matter. -/
theorem used_putProc {u : Phys} {q : Pid} {x : Proc} (hx : x.state = .UNUSED)
    (hq : (s.proc q).state = .UNUSED) (r : Pid) :
    (((s.putPhys u).putProc q x).Used r ↔ s.Used r) ∧
      (s.Used r → ((s.putPhys u).putProc q x).proc r = s.proc r) := by
  unfold Sys.Used
  by_cases hr : r = q
  · rw [hr, Sys.putProc_self, hx, hq]
    exact ⟨.rfl, fun h => absurd rfl h⟩
  · rw [Sys.putProc_of_ne _ _ hr]
    exact ⟨.rfl, fun _ => rfl⟩

/-- **A failed `fork`** leaks nothing exactly in the situations above. -/
theorem SysInv.fork_leakFree (h : SysInv e False s own fl role) (hp : s.Used p) {fuel : Nat}
    (hfuel : 524288 < fuel) :
    Post (fork fuel p) (fun _ => True)
      (fun r t => r = false → (Unchanged s t ↔ s.LeakFree p fl.length .fork)) s := by
  -- the free pages decide, since the mappings stay
  have hlost : ∀ q x w own' fl', (s.proc q).state = .UNUSED → x.state = .UNUSED → Owned w own' fl' →
      Lost own own' → (Unchanged s ((s.putPhys w).putProc q x) ↔
        ¬ ∃ y, own y = .free ∧ own' y = .held) := by
    intro q x w own' fl' hq hx hw hl
    rw [h.unchanged_iff (t := (s.putPhys w).putProc q x) hw (fun r => (used_putProc hx hq r).1)
      (fun r hr => by rw [(used_putProc hx hq r).2 hr]; exact ⟨rfl, rfl⟩)
      fun r hr => ((h.lost hw hl).pgdir hr).2.2, hl.free_iff]
    exact and_iff_left fun r _ y v => hl.page_iff y _ v
  refine h.post_fork hp hfuel (fun _ _ _ => ⟨trivial, trivial⟩) (fun hall _ => ?_)
    (fun q hq hnil _ => ?_) (fun q own' fl' w hq hne hw hl hleak _ => ?_)
    fun q k fl₁ u own' fl' d j w _ _ _ _ _ _ => ?_
  · exact iff_of_true ⟨fun _ => .rfl, fun _ => .rfl, fun _ _ => rfl, fun _ _ _ => .rfl⟩
      (.inl hall)
  · have hkeep := hlost q { s.proc q with kstack := 0, state := .UNUSED } s.phys own fl hq rfl h.owned
      fun _ => .inl rfl
    rw [Sys.putPhys_self] at hkeep
    refine iff_of_true (hkeep.mpr ?_) (.inr ?_)
    · rintro ⟨y, hfree, hheld⟩
      cases hfree.symm.trans hheld
    · rw [hnil]
      decide
  · refine (hlost q _ w own' fl' hq rfl hw hl).trans ?_
    rw [hleak]
    constructor
    · exact fun hno => .inr hno
    · rintro (hall | hno)
      · exact absurd hq (hall q)
      · exact hno
  · rw [post_bind]
    refine .of_forall (fun _ t _ => ?_) fun _ _ => trivial
    rw [post_bind, post_setProc, post_pure]
    exact nofun

/-! ## `sbrk` -/

theorem hasTable_iff (h : SysInv e False s own fl role) (hp : s.Used p) {v : Nat} :
    s.HasTable p v ↔ Tabbed own ((s.proc p).pgdir / 4096) v := by
  obtain ⟨halign, -, hown⟩ := h.pgdir hp
  unfold Sys.HasTable Tabbed
  simp only [inUse_table_iff h.owned hp halign hown]
  constructor
  · rintro ⟨a, t, -, ht⟩
    exact ⟨t, ht⟩
  · rintro ⟨t, ht⟩
    exact ⟨t * 4096, t, rfl, ht⟩

/-- When nothing has changed after a call that has only touched the address space of `p`. -/
theorem SysInv.unchanged_touch (h : SysInv e False s own fl role) (hp : s.Used p) {u : Phys}
    (hu : Owned u own' fl') (ht : Touch own own' ((s.proc p).pgdir / 4096)) :
    Unchanged s ((s.putPhys u).putProc p { s.proc p with sz := (s.proc p).sz }) ↔
      (∀ x, own' x = .free ↔ own x = .free) ∧ ∀ x v,
        own' x = .page ((s.proc p).pgdir / 4096) v ↔ own x = .page ((s.proc p).pgdir / 4096) v := by
  have hproc : ∀ r, ((s.putPhys u).putProc p { s.proc p with sz := (s.proc p).sz }).proc r =
      s.proc r := by
    intro r
    by_cases hr : r = p
    · rw [hr, Sys.putProc_self]
    · rw [Sys.putProc_of_ne _ _ hr, Sys.putPhys_proc]
  rw [h.unchanged_iff (t := (s.putPhys u).putProc p _) hu
    (fun r => by unfold Sys.Used; rw [hproc r])
    (fun r _ => by rw [hproc r]; exact ⟨rfl, rfl⟩) fun r hr => ht.dir (h.pgdir hr).2.2]
  refine and_congr_right fun _ => ⟨fun hall => hall p hp, fun hall r hr => ?_⟩
  by_cases he : r = p
  · rw [he]
    exact hall
  · exact (ht.same (h.pgdir_ne hp hr he)).page

theorem freed_eq_self {d lo hi : Nat} (h : ∀ x v, own x ≠ .page d v) : freed own d lo hi = own := by
  funext x
  unfold freed
  cases ho : own x with
  | page d' v =>
      have hne : d' ≠ d := by
        rintro rfl
        exact h x v ho
      simp [Owner.isPage, hne]
  | _ => rfl

/-- **A failed `sbrk`** leaks nothing exactly in the situations above. -/
theorem SysInv.sbrk_leakFree (h : SysInv e False s own fl role) (hp : s.Used p) (n : BitVec 32)
    {fuel : Nat} (hfuel : 524288 < fuel) :
    Post (sysSbrk fuel p n.toInt) (fun _ => True)
      (fun r t => r = false → (Unchanged s t ↔ s.LeakFree p fl.length (.sbrk n))) s := by
  obtain ⟨halign, -, hown⟩ := h.pgdir hp
  obtain ⟨hb, hpos, hsz⟩ := h.space p hp
  have hlow := BitVec.le_toInt n
  have hhigh := BitVec.toInt_lt (x := n)
  have hgood : ∀ sz (r : Int) u, r = 0 → Post (do
      setProc p fun x => { x with sz := sz }
      pure (decide (r = 0))) (fun _ => True)
        (fun r t => r = false → (Unchanged s t ↔ s.LeakFree p fl.length (.sbrk n)))
        (s.putPhys u) := by
    rintro sz r u rfl
    rw [post_bind, post_setProc, post_pure]
    exact nofun
  have hbad : ∀ u, (Unchanged s ((s.putPhys u).putProc p { s.proc p with sz := (s.proc p).sz }) ↔
      s.LeakFree p fl.length (.sbrk n)) → Post (do
      setProc p fun x => { x with sz := (s.proc p).sz }
      pure (decide ((-1 : Int) = 0))) (fun _ => True)
        (fun r t => r = false → (Unchanged s t ↔ s.LeakFree p fl.length (.sbrk n)))
        (s.putPhys u) := by
    intro u hu
    rw [post_bind, post_setProc, post_pure]
    exact fun _ => hu
  have htouch : ∀ u own' fl', Owned u own' fl' → Touch own own' ((s.proc p).pgdir / 4096) → _ :=
    fun u own' fl' hu ht => h.unchanged_touch hp hu ht
  have htable := fun v => hasTable_iff h hp (v := v)
  have huser := fun v a => inUse_user_iff (a := a) (v := v) h.owned hp halign hown
  rw [Mem.sysSbrk, post_bind, post_get, post_bind, post_onPhys]
  generalize hd : (s.proc p).pgdir / 4096 = d at halign hown hb htouch htable huser
  rw [halign]
  by_cases hn : 0 < n.toInt
  · refine post_growproc_pos h.owned hown hb hsz hn (by omega) hfuel (fun hbig => ?_)
      (fun hle own' fl' u hu ht hb' => hgood _ _ _ rfl) fun hle own' fl' u hu ht hpage hc hsp => ?_
    · refine hbad s.phys (iff_of_true ?_ ?_)
      · exact (htouch _ own fl h.owned (.refl _ _)).mpr ⟨fun _ => .rfl, fun _ _ => .rfl⟩
      · rw [Sys.LeakFree, if_pos hn]
        exact .inl hbig
    · refine hbad u ((htouch u own' fl' hu ht).trans ?_)
      rw [Sys.LeakFree, if_pos hn]
      simp only [htable]
      constructor
      · rintro ⟨hfree, -⟩
        right
        by_contra hno
        push Not at hno
        obtain ⟨x, hx, hne⟩ := hsp hno
        exact hne ((hfree x).mpr ((h.owned.free x).mp hx))
      · rintro (hbig | hall)
        · omega
        · rw [hc hall]
          exact ⟨fun _ => .rfl, fun _ _ => .rfl⟩
  · refine post_growproc_neg h.owned hown hb hpos hsz (by omega) (by omega) hfuel fun u fl' hu => ?_
    by_cases hmin : min (toUint ((s.proc p).sz + n.toInt)) (s.proc p).sz = 0
    · have hkept : keptPages (s.proc p).sz n.toInt = 0 := by
        have hzero : toUint ((s.proc p).sz + n.toInt) = 0 := by omega
        rw [keptPages, hzero]
        rfl
      rw [if_pos hmin]
      rw [hkept] at hu
      refine hbad u ((htouch u _ fl' hu (.freed own d _ _)).trans ?_)
      rw [Sys.LeakFree, if_neg hn]
      constructor
      · rintro ⟨hfree, -⟩ v a ha
        obtain ⟨x, rfl, hx⟩ := (huser v a).mp ha
        have hgone : freed own d 0 (pagesOf (s.proc p).sz) x = .free := by
          unfold freed
          rw [hx]
          exact if_pos (decide_eq_true ⟨rfl, Nat.zero_le v, hb x v hx⟩)
        cases hx.symm.trans ((hfree x).mp hgone)
      · intro hno
        rw [freed_eq_self fun x v hx => hno v _ ((huser v (x * 4096)).mpr ⟨x, rfl, hx⟩)]
        exact ⟨fun _ => .rfl, fun _ _ => .rfl⟩
    · rw [if_neg hmin]
      exact hgood _ _ _ rfl

/-! ## Runs -/

/-- **A failed `fork` or `sbrk` leaks nothing exactly in the situations above**, in every state of a
run in which the arguments of every `exec` fit on its stack page. -/
theorem unchanged_iff_leakFree {tr : List (Sys × Pid × Call)} (hrun : MemRun e tr s)
    (hfit : ∀ x ∈ tr, x.2.2.Fits) {p : Pid} (hp : s.Live p) {c : Call}
    (hc : c = .fork ∨ ∃ n, c = .sbrk n) {fuel : Nat} (hcall : c.run fuel p s = .ok (false, t))
    (hfree : FreeChain s.phys.mem s.phys.freelist fl) :
    Unchanged s t ↔ s.LeakFree p fl.length c := by
  obtain ⟨own, fl', role, h⟩ := hrun.inv hfit s (mem_visited.mpr (Or.inr rfl))
  obtain rfl := h.owned.chain.unique hfree
  have hfuel : 524288 < max fuel 524289 := by omega
  have hle := le_run (le_max_left fuel 524289) p c
  rcases hc with rfl | ⟨n, rfl⟩
  · exact (hle.post trivial (h.fork_leakFree hp.1 hfuel)).of_eq_ok hcall rfl
  · exact (hle.post trivial (h.sbrk_leakFree hp.1 n hfuel)).of_eq_ok hcall rfl

end

/-- The call fails. -/
def fails : Except Stop (Bool × Sys) → Bool
  | .ok (false, _) => true
  | _ => false

/-- What holds after the boot of `machine`. -/
def afterBoot (check : Sys → Bool) : Bool :=
  match machine [] (Sys.zero fun _ => 0) with
  | .ok (_, s) => decide (s.Live initproc) && check s
  | .error _ => false

theorem exists_afterBoot (check : Sys → Bool) (h : afterBoot check = true) :
    ∃ s, MemRun megabyte [] s ∧ s.Live initproc ∧ check s = true := by
  unfold afterBoot at h
  cases hrun : machine [] (Sys.zero fun _ => 0) with
  | error x =>
      rw [hrun] at h
      cases h
  | ok p =>
      rw [hrun] at h
      obtain ⟨hlive, hcheck⟩ := (Bool.and_eq_true_iff ..).mp h
      obtain ⟨tr, hmem, hmap⟩ := memRun_of_ok hrun
      obtain rfl : tr = [] := List.map_eq_nil_iff.mp hmap
      exact ⟨p.2, hmem, of_decide_eq_true hlive, hcheck⟩

theorem exists_of_fails {x : Except Stop (Bool × Sys)} (h : fails x = true) :
    ∃ t, x = .ok (false, t) := by
  match x, h with
  | .ok (false, t), _ => exact ⟨t, rfl⟩

/-- A request beyond `USERTOP` fails and leaks nothing. -/
theorem unchanged_beyond_top :
    ∃ s t, MemRun megabyte [] s ∧ (Call.sbrk 0x7fffffff).run 2000 initproc s = .ok (false, t) ∧
      Unchanged s t := by
  obtain ⟨s, hrun, hlive, hcheck⟩ := exists_afterBoot (fun s =>
    (s.proc initproc).sz == 4096 && fails ((Call.sbrk 0x7fffffff).run 2000 initproc s))
    (by decide +kernel)
  obtain ⟨hsz, hfails⟩ := (Bool.and_eq_true_iff ..).mp hcheck
  obtain ⟨t, ht⟩ := exists_of_fails hfails
  obtain ⟨own, fl, role, hinv⟩ := hrun.inv nofun s (mem_visited.mpr (Or.inr rfl))
  refine ⟨s, t, hrun, ht, (unchanged_iff_leakFree hrun nofun hlive (Or.inr ⟨_, rfl⟩) ht
    hinv.owned.chain).mpr ?_⟩
  rw [Sys.LeakFree, if_pos (by decide), eq_of_beq hsz]
  exact Or.inl (by decide)

/-- The first page of the process is mapped. -/
def firstPageMapped (s : Sys) (p : Pid) : Bool :=
  let d := (s.proc p).pgdir
  let t := pteAddr (le32 s.phys.mem (d + 4 * 0))
  decide (le32 s.phys.mem (d + 4 * 0) &&& PTEL_V ≠ 0) &&
    decide (le32 s.phys.mem (t + 4 * 0) &&& PTEL_V ≠ 0)

/-- **`sbrk` by minus the size of the process** returns -1 and has freed all its pages. -/
theorem sbrk_minus_size_frees :
    ∃ (e : KernelEnd) (tr : List (Sys × Pid × Call)) (s t : Sys) (p : Pid) (n : BitVec 32) (fuel : Nat),
      MemRun e tr s ∧ (∀ x ∈ tr, x.2.2.Fits) ∧ s.Live p ∧
        (Call.sbrk n).run fuel p s = .ok (false, t) ∧ ¬ Unchanged s t := by
  obtain ⟨s, hrun, hlive, hcheck⟩ := exists_afterBoot (fun s =>
    firstPageMapped s initproc && fails ((Call.sbrk (-4096)).run 2000 initproc s))
    (by decide +kernel)
  obtain ⟨hfirst, hfails⟩ := (Bool.and_eq_true_iff ..).mp hcheck
  obtain ⟨t, ht⟩ := exists_of_fails hfails
  refine ⟨megabyte, [], s, t, initproc, -4096, 2000, hrun, nofun, hlive, ht, fun hun => ?_⟩
  obtain ⟨own, fl, role, hinv⟩ := hrun.inv nofun s (mem_visited.mpr (Or.inr rfl))
  have hleak := ((le_run (le_max_left 2000 524289) initproc (.sbrk (-4096))).post trivial
    (hinv.sbrk_leakFree hlive.1 (-4096) (by decide))).of_eq_ok ht rfl
  have hnone := hleak.mp hun
  rw [Sys.LeakFree, if_neg (by decide)] at hnone
  obtain ⟨hdir, htab⟩ := (Bool.and_eq_true_iff ..).mp hfirst
  exact hnone 0 _ ⟨by decide, _, _, ⟨hlive.1, rfl⟩, ⟨of_decide_eq_true hdir, rfl⟩,
    of_decide_eq_true htab, rfl⟩

end Xv6.Mem

import Xv6.Vm.Lookup
import Xv6.Vm.Plan

/-! # The arguments of a new program

What a program that has been started by `exec` finds at `argp`: the pointers to its arguments, a null
word, and the strings, all on the stack page. When `exec` returns 0 this holds exactly if the
arguments fit on one page and there was memory for the page table of the stack page; `exec` checks
neither. -/

namespace Xv6.Vm

open Lib Run

open Function (update update_apply)

/-! ## The layout -/

/-- **The arguments as the program finds them** at `argp`, on the page from `bottom` on; `ptr i` is
the address of the string with index `i`. -/
structure ArgvAt (m : Nat → UInt8) (d bottom argp : Nat) (argv : List (List UInt8))
    (ptr : Nat → Nat) : Prop where
  aligned : argp % 4 = 0
  /-- The pointers are on the page. -/
  array : bottom ≤ argp ∧ argp + 4 * (argv.length + 1) ≤ bottom + 4096
  pointer : ∀ i < argv.length, readWord m d (argp + 4 * i) = some (ptr i)
  null : readWord m d (argp + 4 * argv.length) = some 0
  /-- The strings are on the page. -/
  within : ∀ i < argv.length,
    bottom ≤ ptr i ∧ ptr i + ((argv.getD i []).length + 1) ≤ bottom + 4096
  /-- Each is a copy of its argument with a null byte behind it. -/
  string : ∀ i < argv.length, ∀ k ≤ (argv.getD i []).length,
    readByte m d (ptr i + k) = some ((argv.getD i [] ++ [0]).getD k 0)
  /-- The strings do not overlap each other. -/
  apart : ∀ i < argv.length, ∀ j < argv.length, i < j →
    ptr i + ((argv.getD i []).length + 1) ≤ ptr j ∨ ptr j + ((argv.getD j []).length + 1) ≤ ptr i
  /-- They do not overlap the pointers. -/
  clear : ∀ i < argv.length,
    argp + 4 * (argv.length + 1) ≤ ptr i ∨ ptr i + ((argv.getD i []).length + 1) ≤ argp

/-- **The arguments are laid out** on the last page of the new address space, and no other memory has
been written to for them. -/
def LaidOut (y : ExecState) (argv : List (List UInt8)) : Prop :=
  ∃ bottom q ptr, y.sz = bottom + 4096 ∧ bottom % 4096 = 0 ∧ y.sz ≤ USERTOP ∧
    lookup y.phys.mem (y.pgdir / 4096) (bottom / 4096) = some q ∧
    (∀ w ∈ argStores (q * 4096) bottom y.sz argv, InPage q w) ∧
    ArgvAt y.phys.mem (y.pgdir / 4096) bottom y.sgr argv ptr

/-! ## Arguments that do not fit -/

theorem lt_of_lookup {m : Nat → UInt8} {d v q : Nat} (h : lookup m d v = some q) : q < 1048576 := by
  unfold lookup at h
  obtain ⟨t, -, ht⟩ := Option.bind_eq_some_iff.mp h
  have hlt := le32_lt m (t * 4096 + 4 * (v % 1024))
  unfold target at ht
  split at ht
  · cases ht
    unfold pteAddr PGSIZE entry
    omega
  · cases ht

section Stores

variable {mem bottom argp sp : Nat} {l : List (List UInt8)}

/-- Every string is stored. -/
theorem exists_store_string {a : List UInt8} (ha : a ∈ l) :
    ∃ pa, (pa, a ++ [0]) ∈ pushStores mem bottom argp l sp := by
  induction l generalizing sp with
  | nil => exact nomatch ha
  | cons b l ih =>
      rw [pushStores]
      rcases List.mem_cons.mp ha with rfl | ha
      · exact ⟨_, .head _⟩
      · obtain ⟨pa, hpa⟩ := ih ha
        exact ⟨pa, .tail _ (.tail _ hpa)⟩

/-- The first pointer is stored. -/
theorem exists_store_pointer (hl : l ≠ []) :
    ∃ v, ((mem + argp + 4294967296 - bottom) % 4294967296, bytes32 v) ∈
      pushStores mem bottom argp l sp := by
  induction l generalizing sp with
  | nil => exact absurd rfl hl
  | cons b l ih =>
      rw [pushStores]
      cases l with
      | nil => exact ⟨_, .tail _ (.head _)⟩
      | cons c l =>
          obtain ⟨v, hv⟩ := ih (List.cons_ne_nil c l)
          exact ⟨v, .tail _ (.tail _ hv)⟩

end Stores

variable {argv : List (List UInt8)} {a : List UInt8}

theorem sum_le_of_lengths (h : ∀ a ∈ argv, a.length + 1 ≤ 4096) :
    (argv.map fun a => a.length + 1).sum ≤ argv.length * 4096 := by
  induction argv with
  | nil => exact Nat.le_refl 0
  | cons a argv ih =>
      have hhead := h a (.head _)
      have htail := ih fun b hb => h b (.tail _ hb)
      rw [List.map_cons, List.sum_cons, List.length_cons]
      omega

/-- **Stores on one page are only those of arguments that fit.** -/
theorem argsFit_of_inPage {q bottom : Nat} (hargc : argv.length ≤ 19)
    (hbottom : bottom + 4096 ≤ USERTOP)
    (h : ∀ w ∈ argStores (q * 4096) bottom (bottom + 4096) argv, InPage q w) : ArgsFit argv := by
  have hpush : ∀ w ∈ pushStores (q * 4096) bottom (argpOf (bottom + 4096) argv) argv.reverse
      (bottom + 4096), InPage q w := fun w hw => h w (.tail _ hw)
  have hshort : ∀ a ∈ argv, a.length + 1 ≤ 4096 := by
    intro a ha
    obtain ⟨pa, hpa⟩ := exists_store_string (List.mem_reverse.mpr ha)
    have hin := hpush _ hpa
    unfold InPage at hin
    rw [List.length_append, List.length_singleton] at hin
    omega
  have hsum := sum_le_of_lengths hshort
  cases hargv : argv with
  | nil =>
      unfold ArgsFit
      decide
  | cons a rest =>
      rw [← hargv]
      have hne : argv.reverse ≠ [] := by
        rw [hargv]
        simp
      obtain ⟨v, hv⟩ := exists_store_pointer hne
      have hin := hpush _ hv
      by_contra hlong
      unfold ArgsFit PGSIZE argLen at hlong
      unfold InPage argpOf argLen at hin
      unfold USERTOP at hbottom
      rw [length_bytes32] at hin
      omega

/-! ## Arguments that fit -/

/-- Reading from a page of the address space. -/
theorem translate_page {m : Nat → UInt8} {d q v off : Nat} (hlook : lookup m d v = some q)
    (hoff : off < 4096) : translate m d (v * 4096 + off) = some (q * 4096 + off) := by
  have hdiv : (v * 4096 + off) / 4096 = v := by omega
  have hmod : (v * 4096 + off) % 4096 = off := by omega
  rw [translate, hdiv, hmod, hlook, Option.map_some]

/-- **The layout of arguments that fit**, in a memory in which the stores for them are to be found on
the page `q`. -/
theorem ArgsFit.argvAt (hfit : ArgsFit argv) {m m' : Nat → UInt8} {d q v : Nat}
    (hlook : lookup m' d v = some q) (htop : v * 4096 + 4096 ≤ USERTOP)
    (hmem : ∀ x, x / 4096 = q →
      m' x = applyStores m (argStores (q * 4096) (v * 4096) (v * 4096 + 4096) argv) x) :
    ArgvAt m' d (v * 4096) (argpOf (v * 4096 + 4096) argv) argv
      fun i => v * 4096 + argOff argv.reverse 4096 i := by
  have hq := lt_of_lookup hlook
  have hsum := hfit.sum_le
  have hlen : argv.reverse.length = argv.length := List.length_reverse
  have hbottom : v * 4096 ≤ USERTOP := Nat.le_trans (Nat.le_add_right _ _) htop
  rw [hfit.argStores_eq hq htop, applyStores_cons] at hmem
  have hao : (4096 - argLen argv - 4 * (argv.length + 1)) % 4 = 0 := by
    unfold argLen
    omega
  rw [hfit.argpOf_eq htop]
  generalize 4096 - argLen argv - 4 * (argv.length + 1) = ao at hmem hsum hao
  dsimp only at hmem
  have hpush : Pushed (put m (q * 4096 + (ao + 4 * argv.length)) (bytes32 0)) q (v * 4096) ao 4096
      argv.reverse (applyStores _ (pushStores (q * 4096) (v * 4096) (v * 4096 + ao) argv.reverse
        (v * 4096 + 4096))) :=
    pushed_applyStores _ hq hbottom (Nat.le_refl 4096) (by rw [hlen]; omega)
  generalize applyStores _ _ = m₁ at hmem hpush
  have horder : ∀ i < argv.length, ao + 4 * (argv.length + 1) ≤ argOff argv.reverse 4096 i ∧
      argOff argv.reverse 4096 i + ((argv.getD i []).length + 1) ≤ 4096 ∧
      ∀ j < argv.length, i < j → argOff argv.reverse 4096 i + ((argv.getD i []).length + 1) ≤
        argOff argv.reverse 4096 j := by
    intro i hi
    have horder := argOff_order (l := argv.reverse) (o := 4096) (by omega) (by rwa [hlen])
    rw [List.reverse_reverse, hlen] at horder
    exact ⟨by omega, horder.2.1, horder.2.2⟩
  have hword : ∀ off, off + 4 ≤ 4096 → readWord m' d (v * 4096 + off) =
      some (le32 m₁ (q * 4096 + off)) := by
    intro off hoff
    rw [readWord, translate_page hlook (by omega), Option.map_some]
    exact congrArg some (le32_congr fun k hk => hmem _ (by omega))
  refine ⟨?_, ?_, fun i hi => ?_, ?_, fun i hi => ?_, fun i hi k hk => ?_, fun i hi j hj hij => ?_,
    fun i hi => ?_⟩
  · omega
  · omega
  · rw [Nat.add_assoc, hword _ (by omega), hpush.pointer i (by rwa [hlen])]
  · rw [Nat.add_assoc, hword _ (by omega)]
    refine congrArg some ?_
    rw [le32_congr fun k hk => hpush.rest _ (by omega) (by omega), le32_put_self]
  · have := horder i hi
    omega
  · have hi' := horder i hi
    have hstring := hpush.string i (by rwa [hlen])
    rw [List.reverse_reverse] at hstring
    rw [readByte, Nat.add_assoc, translate_page hlook (by omega), Option.map_some, hmem _ (by omega),
      ← hstring k hk, Nat.add_assoc]
  · refine .inl ?_
    have hnext := (horder i hi).2.2 j hj hij
    rw [Nat.add_assoc]
    exact Nat.add_le_add_left hnext _
  · refine .inl ?_
    have hlow := (horder i hi).1
    rw [Nat.add_assoc]
    exact Nat.add_le_add_left hlow _

/-! ## `exec` -/

section Exec

variable {own own' : Nat → Owner} {fl fl' : List Nat} {d₀ d sz sz' sgr ref spc : Nat} {s u : Phys}
  {argv : List (List UInt8)} {busy : Bool} {name : List UInt8} {short : Prop}

/-- The new directory is not the old one. -/
theorem Building.ne (h : Owned s own fl) (hd₀ : own d₀ = .dir) (hb : Building own own' fl d sz') :
    d ≠ d₀ := by
  rintro rfl
  cases hd₀.symm.trans ((h.free d).mp hb.built.mem)

theorem Building.released_dir (hb : Building own own' fl d sz') (hne : d ≠ d₀) :
    released own' d₀ d = .dir := by
  rw [released, if_neg (by rw [hb.dir]; simp [hne, Owner.ofSpace])]
  exact hb.dir

/-- A page of the new address space is not one of the old address space. -/
theorem Building.released_page {q v : Nat} (h : Owned s own fl) (hd₀ : own d₀ = .dir)
    (hb : Building own own' fl d sz') (hq : own' q = .page d v) :
    q ≠ d₀ ∧ (own' q).ofSpace d₀ = false ∧ released own' d₀ q = .page d v := by
  have hne := hb.ne h hd₀
  have hqd₀ : q ≠ d₀ := by
    rintro rfl
    cases hq.symm.trans ((hb.built.same h hd₀).dir hd₀)
  have hqspace : (own' q).ofSpace d₀ = false := by
    rw [hq]
    simp [Owner.ofSpace, hne]
  refine ⟨hqd₀, hqspace, ?_⟩
  rw [released, if_neg (by simp [hqd₀, hqspace])]
  exact hq

/-- The new address space after `exec`, with the stores for its arguments. -/
theorem laidOut_of_stored {q : Nat} (h : Owned s own fl) (hd₀ : own d₀ = .dir)
    (hb : Building own own' fl d sz') (hu : Owned u (released own' d₀) fl') (hfit : ArgsFit argv)
    (hs : ArgsStored own' d d₀ sz short argv u sz' sgr) (hq : own' q = .page d (pagesOf sz)) :
    LaidOut ⟨u, ref, busy, d * 4096, sz', name, spc, sgr⟩ argv := by
  obtain ⟨rfl, rfl, ⟨m, hm⟩, -⟩ := hs
  obtain ⟨hqd₀, hqspace, hq'⟩ := hb.released_page h hd₀ hq
  have hd' := hb.released_dir (hb.ne h hd₀)
  have htop := hb.le
  have hlt : pagesOf sz < 1048576 := hu.page_lt hq'
  have hlook := (hu.lookup_eq_some_iff hd' hlt).mpr hq'
  refine ⟨pagesOf sz * 4096, q, fun i => pagesOf sz * 4096 + argOff argv.reverse 4096 i, rfl,
    by omega, htop, ?_,
    fun w hw => hfit.inPage (lt_of_lookup hlook) htop w hw, ?_⟩
  · show lookup u.mem (d * 4096 / 4096) (pagesOf sz * 4096 / 4096) = some q
    rw [Nat.mul_div_cancel _ (by decide), Nat.mul_div_cancel _ (by decide)]
    exact hlook
  · show ArgvAt u.mem (d * 4096 / 4096) _ _ _ _
    rw [Nat.mul_div_cancel _ (by decide)]
    refine hfit.argvAt hlook htop fun x hx => hm q hq x ?_ ?_
    · rw [hx]
      exact hqd₀
    · rw [hx]
      exact hqspace

/-- Without its stack page the new program does not find its arguments. -/
theorem not_laidOut_of_hole (h : Owned s own fl) (hd₀ : own d₀ = .dir)
    (hb : Building own own' fl d sz') (hu : Owned u (released own' d₀) fl')
    (hs : ArgsStored own' d d₀ sz short argv u sz' sgr) (hshort : short) :
    ¬ LaidOut ⟨u, ref, busy, d * 4096, sz', name, spc, sgr⟩ argv := by
  obtain ⟨rfl, -, -, hhole⟩ := hs
  rintro ⟨bottom, q, ptr, hsz, -, htop, hlook, -⟩
  have hbottom : bottom = pagesOf sz * 4096 := by
    have hsz' : pagesOf sz * 4096 + 4096 = bottom + 4096 := hsz
    omega
  have hlt : pagesOf sz < 1048576 := by
    have htop' : pagesOf sz * 4096 + 4096 ≤ 2147483648 := htop
    omega
  have hlook' : lookup u.mem (d * 4096 / 4096) (bottom / 4096) = some q := hlook
  rw [hbottom, Nat.mul_div_cancel _ (by decide), Nat.mul_div_cancel _ (by decide),
    hu.lookup_eq_some_iff (hb.released_dir (hb.ne h hd₀)) hlt] at hlook'
  unfold released at hlook'
  split at hlook'
  · cases hlook'
  · exact hhole hshort q hlook'

end Exec

/-- **`exec` lays out its arguments faithfully exactly when they fit**: whenever `exec` returns 0, for
at most 19 arguments of any lengths, the new program finds them on its stack page if and only if they
fit on it and memory did not run out at the page table of the stack page. -/
theorem exec_laidOut_iff_argsFit (x y : ExecState) (own : Nat → Owner) (fl : List Nat)
    (h : Owned x.phys own fl) (d₀ n₀ : Nat) (hpgdir : x.pgdir = d₀ * 4096) (hd₀ : own d₀ = .dir)
    (hb₀ : Bounded own d₀ n₀) (hn₀ : n₀ ≤ 524288) (hbusy : x.busy = false)
    (file : Option (List UInt8)) (path : List UInt8) (argv : List (List UInt8))
    (hargc : argv.length ≤ 19) (fuel : Nat)
    (hrun : execImage file fuel path argv x = .ok (0, y)) :
    LaidOut y argv ↔
      ArgsFit argv ∧ ∀ sz, execPlan file fl.length = .loaded sz → ¬ StackShort fl.length sz := by
  have hplan (hfit : ArgsFit argv) : ∃ sz, execPlan file fl.length = .loaded sz ∧
      (StackShort fl.length sz ↔ ¬ LaidOut y argv) := by
    have hpost : Post (execImage file (max fuel 1048577) path argv) (fun _ => True)
        (fun r y => r = 0 → ∃ sz, execPlan file fl.length = .loaded sz ∧
          (StackShort fl.length sz ↔ ¬ LaidOut y argv)) x := by
      refine post_execImage_plan h (by omega) (fun _ _ => hfit) hbusy hpgdir hd₀ hb₀ hn₀
        (fun _ _ => trivial) (fun _ _ _ _ _ _ _ hr => ?_) (fun _ _ _ _ hr => ?_)
        fun sz hl own' fl' u d sz' name spc sgr hb _ hshape hu hs _ => ⟨sz, hl, ?_⟩
      · cases hr
      · cases hr
      · refine ⟨not_laidOut_of_hole h hd₀ hb hu hs, fun hlaid => ?_⟩
        by_contra hno
        obtain ⟨k, hk⟩ := hshape hno
        obtain ⟨q, hq⟩ := (hk.pages (pagesOf sz)).mpr (by rw [hs.size]; unfold pagesOf; omega)
        exact hlaid (laidOut_of_stored h hd₀ hb hu hfit hs hq)
    exact ((le_execImage (le_max_left fuel 1048577)).post trivial hpost).of_eq_ok hrun rfl
  constructor
  · intro hlaid
    have hfit : ArgsFit argv := by
      obtain ⟨bottom, q, ptr, hsz, -, htop, hlook, hstores, -⟩ := hlaid
      rw [hsz] at htop hstores
      exact argsFit_of_inPage hargc htop hstores
    obtain ⟨sz, hl, hshort⟩ := hplan hfit
    refine ⟨hfit, fun sz' hl' hs => ?_⟩
    obtain rfl : sz' = sz := Plan.loaded.inj (hl'.symm.trans hl)
    exact hshort.mp hs hlaid
  · rintro ⟨hfit, hno⟩
    obtain ⟨sz, hl, hshort⟩ := hplan hfit
    by_contra hlaid
    exact hno sz hl (hshort.mpr hlaid)

/-! ## A program without segments -/

/-- An executable that is only a header. -/
def bareElf : List UInt8 := [0x7f, 0x45, 0x4c, 0x46] ++ List.replicate 48 0

/-- The owners of a memory with an empty address space, whose directory is at page 256, and with the
free pages 258, 260 and 257. -/
def bareOwner (p : Nat) : Owner :=
  if p = 256 then .dir else if p = 257 ∨ p = 258 ∨ p = 260 then .free else .none

/-- A process in that memory that is about to call `exec`. -/
def bareState : ExecState where
  phys := ⟨put (put (fun _ => 0) (258 * 4096 + 4 * 0) (bytes32 (260 * 4096))) (260 * 4096 + 4 * 0)
    (bytes32 (257 * 4096)), 258 * 4096⟩
  ref := 1
  busy := false
  pgdir := 256 * 4096
  sz := 0
  name := []
  spc := 0
  sgr := 0

theorem entry_bareState (p i : Nat) (hi : i < 1024) :
    entry bareState.phys.mem p i =
      if i = 0 ∧ p = 260 then 257 * 4096 else if i = 0 ∧ p = 258 then 260 * 4096 else 0 := by
  have hzero : entry (fun _ => 0) p i = 0 := by simp [entry, le32, le16]
  simp only [bareState, entry_putWord _ _ _ _ _ _ (show 0 < 1024 by decide) hi
    (show 257 * 4096 < 4294967296 by decide), entry_putWord _ _ _ _ _ _ (show 0 < 1024 by decide) hi
    (show 260 * 4096 < 4294967296 by decide), hzero]
  grind

theorem owned_bareState : Owned bareState.phys bareOwner [258, 260, 257] := by
  have hchain : FreeChain bareState.phys.mem bareState.phys.freelist [258, 260, 257] := by
    simp only [FreeChain, ← entry_zero, entry_bareState _ 0 (by decide)]
    decide
  have hentry := entry_bareState
  refine ⟨?_, hchain, ?_, by decide, ?_, ?_, ?_, ?_, ?_, ?_⟩ <;> unfold bareOwner <;> grind

theorem bounded_bareOwner : Bounded bareOwner 256 0 := by
  intro q v hq
  unfold bareOwner at hq
  grind

theorem execPlan_bareElf : execPlan (some bareElf) 3 = .loaded 0 := by decide +kernel

theorem exec_laidOut_hello :
    ∃ y, execImage (some bareElf) 1048577 [] [[104, 105]] bareState = .ok (0, y) ∧
      LaidOut y [[104, 105]] := by
  have hfit : ArgsFit [[104, 105]] := by
    unfold ArgsFit
    decide
  have hpost : Post (execImage (some bareElf) 1048577 [] [[104, 105]]) (fun _ => False)
      (fun r _ => r = 0) bareState := by
    refine post_execImage_plan owned_bareState (by decide) (fun _ _ => hfit) rfl rfl rfl
      bounded_bareOwner (Nat.zero_le _) (fun hd => ?_) (fun hd => ?_) (fun hf => ?_)
      fun _ _ _ _ _ _ _ _ _ _ _ _ _ _ _ => rfl
    · cases hd.symm.trans execPlan_bareElf
    · cases hd.symm.trans execPlan_bareElf
    · cases hf.symm.trans execPlan_bareElf
  obtain ⟨r, y, hok, rfl⟩ := hpost.exists_ok
  refine ⟨y, hok, (exec_laidOut_iff_argsFit bareState y bareOwner [258, 260, 257] owned_bareState 256
    0 rfl rfl bounded_bareOwner (Nat.zero_le _) rfl (some bareElf) [] [[104, 105]] (by decide) 1048577
    hok).mpr ⟨hfit, fun sz hsz => ?_⟩⟩
  obtain rfl : sz = 0 := Plan.loaded.inj (hsz.symm.trans execPlan_bareElf)
  unfold StackShort
  decide

/-- The stores for an argument that is as long as a page begin on the page before. -/
theorem argStores_long (ha : a.length = 4096) (bottom : Nat) (hbottom : bottom + 4096 ≤ USERTOP) :
    argStores (260 * 4096) bottom (bottom + 4096) [a] =
      [(260 * 4096 - 8, bytes32 0), (260 * 4096 - 1, a ++ [0]),
        (260 * 4096 - 12, bytes32 ((bottom + 4294967295) % 4294967296))] := by
  unfold USERTOP at hbottom
  have hargLen : argLen [a] = 4100 := by
    unfold argLen
    rw [List.map_singleton, List.sum_singleton, ha]
  have hargp : argpOf (bottom + 4096) [a] = (bottom + 4294967284) % 4294967296 := by
    unfold argpOf
    rw [hargLen, List.length_singleton]
    omega
  have hsp : (bottom + 4096 + 4294967296 - (4096 + 1)) % 4294967296 =
      (bottom + 4294967295) % 4294967296 := by omega
  have hnull : (260 * 4096 + (bottom + 4294967284) % 4294967296 + 4294967296 - bottom + 4 * 1) %
      4294967296 = 260 * 4096 - 8 := by omega
  have hstring : (260 * 4096 + (bottom + 4294967295) % 4294967296 + 4294967296 - bottom) %
      4294967296 = 260 * 4096 - 1 := by omega
  have hpointer : (260 * 4096 + (bottom + 4294967284) % 4294967296 + 4294967296 - bottom + 4 * 0) %
      4294967296 = 260 * 4096 - 12 := by omega
  unfold argStores
  rw [hargp, List.reverse_singleton, pushStores, pushStores, ha, List.length_singleton,
    List.length_nil, hsp, hnull, hstring, hpointer]

/-- Its stores are harmless if neither page is pinned. -/
theorem harmless_argStores_long {own : Nat → Owner} (ha : a.length = 4096) {bottom : Nat}
    (hbottom : bottom + 4096 ≤ USERTOP) (h₀ : ¬ (own 259).pinned) (h₁ : ¬ (own 260).pinned) :
    ∀ v ∈ argStores (260 * 4096) bottom (bottom + 4096) [a], Harmless own v := by
  rw [argStores_long ha bottom hbottom]
  intro v hv k hk
  have hpage : (v.1 + k) / 4096 = 259 ∨ (v.1 + k) / 4096 = 260 := by
    simp only [List.mem_cons, List.not_mem_nil, or_false] at hv
    rcases hv with rfl | rfl | rfl
    · rw [length_bytes32] at hk
      omega
    · rw [List.length_append, ha, List.length_singleton] at hk
      omega
    · rw [length_bytes32] at hk
      omega
  rcases hpage with hp | hp
  · rwa [hp]
  · rwa [hp]

/-- The allocation of the stack page of the program. -/
theorem post_bareStack {s : Phys} (h : Owned s (update bareOwner 258 .dir) [260, 257])
    {fuel : Nat} (hfuel : 524288 < fuel) {E : Stop → Prop} {Q : Nat → Phys → Prop}
    (hQ : ∀ u, Owned u (update (update (update bareOwner 258 .dir) 257
      (.tab 258 0)) 260 (.page 258 0)) [] → Q 4096 u) :
    Post (allocuvm fuel (258 * 4096) 0 4096) E Q s := by
  have hnotab : ¬ Tabbed (update bareOwner 258 .dir) 258 0 := by
    rintro ⟨t, ht⟩
    rw [update_apply] at ht
    unfold bareOwner at ht
    grind
  have hnopage : ∀ p, update bareOwner 258 .dir p ≠ .page 258 0 := by
    intro p hp
    obtain ⟨t, ht⟩ := h.pageTab p 258 0 hp
    exact hnotab ⟨t, ht⟩
  refine post_allocOne (n := 0) h rfl hnopage (by decide) hfuel (fun _ _ hfl => nomatch hfl)
    (fun _ _ _ _ htab => absurd htab hnotab) (fun q t fl' u hfl _ hu _ => ?_)
    fun q u hfl => nomatch hfl
  simp only [List.cons.injEq] at hfl
  obtain ⟨rfl, rfl, rfl⟩ := hfl
  exact hQ u hu

/-- The second half of `exec` with the long argument: the page before the stack page is not used for
anything, so that writing to it has no consequences. -/
theorem post_execStack_long {x : ExecState} {entry : Nat} (ha : a.length = 4096)
    (h : Owned x.phys (update bareOwner 258 .dir) [260, 257])
    (hbuilt : Built bareOwner (update bareOwner 258 .dir) [258, 260, 257] 258)
    (hpgdir : x.pgdir = 256 * 4096) :
    Post (execStack (imageOps (some bareElf) 1048577) (258 * 4096) () 0 [] [a] entry)
      (fun _ => False) (fun r _ => r = 0) x := by
  rw [execStack]
  dsimp only
  rw [imageOps_allocuvm, post_bind, post_onPhys, show pgroundup 0 = 0 from rfl,
    show (0 + PGSIZE) % 4294967296 = 4096 from rfl]
  refine post_bareStack h (by decide) fun w hw => ?_
  have hbuilding : Building bareOwner (update (update (update bareOwner 258
      .dir) 257 (.tab 258 0)) 260 (.page 258 0)) [258, 260, 257] 258 4096 := by
    refine ⟨(hbuilt.update (by decide) (.inr rfl)).update (by decide) (.inr rfl), rfl,
      fun q v hq => ?_, by decide⟩
    simp only [update_apply] at hq
    unfold bareOwner at hq
    have : v = 0 := by grind
    rw [this]
    decide
  have hharmless : ∀ v ∈ argStores (260 * 4096) 0 4096 [a], Harmless
      (update (update (update bareOwner 258 .dir) 257 (.tab 258 0)) 260
        (.page 258 0)) v :=
    harmless_argStores_long ha (by decide) id id
  rw [if_neg (by decide), imageOps_pte, post_bind, post_onPhys,
    show pteAt (258 * 4096) 0 = pteAt (258 * 4096) (0 * 4096) from rfl]
  refine post_pteAt hw rfl (by decide) (fun q hq => ?_) (fun hno _ => absurd rfl (hno 260))
    fun hno => absurd ⟨257, rfl⟩ hno
  obtain rfl : q = 260 := hw.pageInj q 260 258 0 hq rfl
  dsimp only [Option.map_some, Option.getD_some]
  rw [pteAddr_pteOf]
  exact post_execCommit (x := { x with phys := w }) (some bareElf) entry [] owned_bareState
    (by decide) hw hbuilding hpgdir rfl bounded_bareOwner (Nat.zero_le _) hharmless
    fun _ _ _ _ => rfl

/-- **An argument that does not fit**: `exec` returns 0, but it has written to the page before the
stack page, and the pointers to the arguments are not on the stack page. -/
theorem exec_overruns_stackPage :
    ∃ y, execImage (some bareElf) 1048577 [] [List.replicate 4096 97] bareState = .ok (0, y) ∧
      ¬ LaidOut y [List.replicate 4096 97] := by
  have hpost : Post (execImage (some bareElf) 1048577 [] [List.replicate 4096 97]) (fun _ => False)
      (fun r _ => r = 0) bareState := by
    have hread : readAt bareElf 0 ELFHDR = (52, bareElf) := by decide +kernel
    have hphnum : (elfhdrOf bareElf).phnum = 0 := by decide +kernel
    unfold execImage exec
    rw [post_bind]
    refine post_bind.mpr (post_modify.mpr (post_pure.mpr ?_))
    dsimp only
    rw [show (imageOps (some bareElf) 1048577).ilock () = lockInode from rfl, post_bind, lockInode,
      post_bind, post_get, if_neg (by decide), if_neg (by decide), post_modify, imageOps_readi,
      post_bind, post_pure, Option.getD_some, hread]
    dsimp only
    rw [if_neg (by decide +kernel), if_neg (by decide +kernel), post_bind, hphnum,
      show (imageOps (some bareElf) 1048577).setupkvm = onPhys setupkvm from rfl, post_onPhys]
    refine post_setupkvm owned_bareState (fun hnil => nomatch hnil)
      fun d fl' u hfl hu _ hbuilt _ => ?_
    simp only [List.cons.injEq] at hfl
    obtain ⟨rfl, rfl⟩ := hfl
    dsimp only
    rw [post_bind, execLoad, post_pure, post_bind,
      show (imageOps (some bareElf) 1048577).iunlockput () = unlockputInode from rfl, unlockputInode,
      post_bind, post_get, if_neg (by simp), post_modify]
    exact post_execStack_long List.length_replicate hu hbuilt rfl
  obtain ⟨r, y, hok, rfl⟩ := hpost.exists_ok
  refine ⟨y, hok, ?_⟩
  rintro ⟨bottom, q, ptr, hsz, -, htop, -, hstores, -⟩
  rw [hsz] at htop hstores
  have hfit := argsFit_of_inPage (by decide) htop hstores
  unfold ArgsFit argLen at hfit
  rw [List.map_singleton, List.sum_singleton, List.length_replicate] at hfit
  exact absurd hfit (by decide)

end Xv6.Vm

import Xv6.Vm.Copy

/-! # Reading and writing through a page table

What a page directory in memory maps: the page table and the page of a virtual page number, and the
bytes that a user program reads and writes at its addresses. When the memory agrees with the owners
of its pages, these are the tables and pages of the address space. -/

namespace Xv6.Vm

open Lib Run

/-! ## The walk -/

/-- The page that an entry points to, if it is valid. -/
def target (e : Nat) : Option Nat :=
  if e &&& PTEL_V ≠ 0 then some (pteAddr e / 4096) else none

/-- The page table for the virtual page `v` in the directory at page `d`. -/
def tableOf (m : Nat → UInt8) (d v : Nat) : Option Nat := target (entry m d (v / 1024))

/-- The page at the virtual page `v`. -/
def lookup (m : Nat → UInt8) (d v : Nat) : Option Nat :=
  (tableOf m d v).bind fun t => target (entry m t (v % 1024))

/-- The address of a user program. -/
abbrev UserAddr : Type := Fin USERTOP

/-- The physical address behind a virtual address. -/
def translate (m : Nat → UInt8) (d a : Nat) : Option Nat :=
  (lookup m d (a / 4096)).map fun q => q * 4096 + a % 4096

/-- The byte that is read at a virtual address. -/
def readByte (m : Nat → UInt8) (d a : Nat) : Option UInt8 := (translate m d a).map m

/-- The word that is read at a virtual address. -/
def readWord (m : Nat → UInt8) (d a : Nat) : Option Nat := (translate m d a).map (le32 m)

/-- A user program writes a byte; nothing happens where no page is mapped. -/
def writeByte (d : Nat) (m : Nat → UInt8) (w : UserAddr × UInt8) : Nat → UInt8 :=
  match translate m d w.1 with
  | some x => Function.update m x w.2
  | none => m

@[simp] theorem target_pteOf (p : Nat) : target (pteOf p) = some p := by
  rw [target, if_pos (by rw [pteOf_and]; decide), pteAddr_pteOf, Nat.mul_div_cancel _ (by decide)]

@[simp] theorem target_zero : target 0 = none := rfl

theorem page_lt (a : UserAddr) : (a : Nat) / 4096 < 524288 := by
  have ha := a.isLt
  unfold USERTOP at ha
  omega

/-! ## The walk and the owners -/

variable {s : Phys} {own : Nat → Owner} {fl : List Nat} {d v : Nat}

/-- **The page tables of a directory** are those of its address space. -/
theorem Owned.tableOf_eq_some_iff (h : Owned s own fl) (hd : own d = .dir) (hv : v < 1048576)
    {t : Nat} : tableOf s.mem d v = some t ↔ own t = .tab d (v / 1024) := by
  unfold tableOf
  rcases h.dir d _ hd (show v / 1024 < 1024 by omega) with ⟨t', ht', he⟩ | ⟨hno, he⟩
  · rw [he, target_pteOf, Option.some_inj]
    constructor
    · rintro rfl
      exact ht'
    · exact fun ht => h.tabInj t' t d _ ht' ht
  · rw [he, target_zero]
    exact ⟨fun hnone => (nomatch hnone), fun ht => absurd ht (hno t)⟩

/-- **The pages that a directory maps** are those of its address space. -/
theorem Owned.lookup_eq_some_iff (h : Owned s own fl) (hd : own d = .dir) (hv : v < 1048576)
    {q : Nat} : lookup s.mem d v = some q ↔ own q = .page d v := by
  have hsplit : 1024 * (v / 1024) + v % 1024 = v := by omega
  unfold lookup
  cases htab : tableOf s.mem d v with
  | none =>
      refine ⟨fun hnone => (nomatch hnone), fun hq => ?_⟩
      obtain ⟨t, ht⟩ := h.pageTab q d v hq
      rw [(h.tableOf_eq_some_iff hd hv).mpr ht] at htab
      cases htab
  | some t =>
      have ht := (h.tableOf_eq_some_iff hd hv).mp htab
      have hentry := h.tab t d _ _ ht (show v % 1024 < 1024 by omega)
      rw [hsplit] at hentry
      rw [Option.bind_some]
      rcases hentry with ⟨q', hq', he⟩ | ⟨hno, he⟩
      · rw [he, target_pteOf, Option.some_inj]
        constructor
        · rintro rfl
          exact hq'
        · exact fun hq => h.pageInj q' q d v hq' hq
      · rw [he, target_zero]
        exact ⟨fun hnone => (nomatch hnone), fun hq => absurd hq (hno q)⟩

theorem Owned.lookup_isSome_iff (h : Owned s own fl) (hd : own d = .dir) (hv : v < 1048576) :
    (lookup s.mem d v).isSome ↔ ∃ q, own q = .page d v := by
  rw [Option.isSome_iff_exists]
  exact exists_congr fun q => h.lookup_eq_some_iff hd hv

/-- The directory maps exactly the first `n` pages. -/
def MapsExactly (m : Nat → UInt8) (d n : Nat) : Prop :=
  ∀ v < 1048576, (lookup m d v).isSome ↔ v < n

section

variable (h : Owned s own fl)

include h

/-- There are no pages behind the end of the directory. -/
theorem Owned.page_lt {q : Nat} (hq : own q = .page d v) : v < 1048576 := by
  obtain ⟨t, ht⟩ := h.pageTab q d v hq
  have := (h.tabDir t d _ ht).2
  omega

theorem Owned.dir_of_page {q : Nat} (hq : own q = .page d v) : own d = .dir := by
  obtain ⟨t, ht⟩ := h.pageTab q d v hq
  exact (h.tabDir t d _ ht).1

theorem Owned.mapsExactly_iff (hd : own d = .dir) {n : Nat}
    (hn : n ≤ 1048576) : MapsExactly s.mem d n ↔ ∀ v, (∃ q, own q = .page d v) ↔ v < n := by
  constructor
  · intro hmaps v
    by_cases hv : v < 1048576
    · rw [← h.lookup_isSome_iff hd hv]
      exact hmaps v hv
    · refine ⟨fun ⟨q, hq⟩ => absurd (h.page_lt hq) hv, fun hvn => absurd hvn (by omega)⟩
  · intro hpages v hv
    rw [h.lookup_isSome_iff hd hv]
    exact hpages v

/-- The memory is determined by the owners as far as the walk is concerned. -/
theorem Owned.lookup_congr {s' : Phys} {own' : Nat → Owner} {fl' : List Nat}
    (h' : Owned s' own' fl') (hd : own d = .dir) (hd' : own' d = .dir) (hv : v < 1048576)
    (hpage : ∀ q, own' q = .page d v ↔ own q = .page d v) :
    lookup s'.mem d v = lookup s.mem d v := by
  apply Option.ext
  intro q
  rw [h'.lookup_eq_some_iff hd' hv, h.lookup_eq_some_iff hd hv, hpage q]

theorem Owned.tableOf_congr {s' : Phys} {own' : Nat → Owner} {fl' : List Nat}
    (h' : Owned s' own' fl') (hd : own d = .dir) (hd' : own' d = .dir) (hv : v < 1048576)
    (htab : ∀ t, own' t = .tab d (v / 1024) ↔ own t = .tab d (v / 1024)) :
    tableOf s'.mem d v = tableOf s.mem d v := by
  apply Option.ext
  intro t
  rw [h'.tableOf_eq_some_iff hd' hv, h.tableOf_eq_some_iff hd hv, htab t]

/-- The byte behind an address of a mapped page. -/
theorem Owned.readByte_eq {q : Nat} {a : UserAddr}
    (hq : own q = .page d (a / 4096)) :
    readByte s.mem d a = some (s.mem (q * 4096 + a % 4096)) := by
  have hlook := (h.lookup_eq_some_iff (h.dir_of_page hq) (h.page_lt hq)).mpr hq
  rw [readByte, translate, hlook, Option.map_some, Option.map_some]

theorem Owned.readByte_eq_none (hd : own d = .dir) {a : UserAddr}
    (hno : ∀ q, own q ≠ .page d (a / 4096)) : readByte s.mem d a = none := by
  have hv : (a : Nat) / 4096 < 1048576 := by
    have := Vm.page_lt a
    omega
  have hlook : lookup s.mem d (a / 4096) = none := by
    apply Option.eq_none_iff_forall_ne_some.mpr
    exact fun q hq => hno q ((h.lookup_eq_some_iff hd hv).mp hq)
  rw [readByte, translate, hlook, Option.map_none, Option.map_none]

/-! ## Writes of user programs -/

/-- **A write through a page table** changes a page of its address space and nothing else. -/
theorem Owned.writeByte (hd : own d = .dir) (w : UserAddr × UInt8) :
    Owned { s with mem := writeByte d s.mem w } own fl ∧
      ∀ x, (∀ v, own (x / 4096) ≠ .page d v) → Vm.writeByte d s.mem w x = s.mem x := by
  have hv : (w.1 : Nat) / 4096 < 1048576 := by
    have := Vm.page_lt w.1
    omega
  unfold Vm.writeByte translate
  cases hlook : lookup s.mem d (w.1 / 4096) with
  | none => exact ⟨h, fun _ _ => rfl⟩
  | some q =>
      have hq := (h.lookup_eq_some_iff hd hv).mp hlook
      have hpage : (q * 4096 + w.1 % 4096) / 4096 = q := by omega
      have hagree : AgreeOff q s.mem
          (Function.update s.mem (q * 4096 + w.1 % 4096) w.2) := by
        intro x hx
        refine Function.update_of_ne ?_ ..
        rintro rfl
        exact hx hpage
      refine ⟨h.write (p := q) (by rw [hq]; exact id) hagree, fun x hx => hagree x ?_⟩
      rintro rfl
      exact hx _ hq

/-- Any number of writes. -/
theorem Owned.writes (hd : own d = .dir) (ws : List (UserAddr × UInt8)) :
    Owned { s with mem := ws.foldl (Vm.writeByte d) s.mem } own fl ∧
      ∀ x, (∀ v, own (x / 4096) ≠ .page d v) → ws.foldl (Vm.writeByte d) s.mem x = s.mem x := by
  induction ws generalizing s with
  | nil => exact ⟨h, fun _ _ => rfl⟩
  | cons w ws ih =>
      obtain ⟨hw, hmem⟩ := h.writeByte hd w
      obtain ⟨hws, hmems⟩ := ih hw
      exact ⟨hws, fun x hx => (hmems x hx).trans (hmem x hx)⟩

/-- **Writes through one table do not show through another.** -/
theorem Owned.readByte_writes {c : Nat} (hd : own d = .dir)
    (hc : own c = .dir) (hne : c ≠ d) (ws : List (UserAddr × UInt8)) (a : UserAddr) :
    readByte (ws.foldl (Vm.writeByte d) s.mem) c a = readByte s.mem c a := by
  obtain ⟨hws, hmem⟩ := h.writes hd ws
  by_cases hpage : ∃ q, own q = .page c (a / 4096)
  · obtain ⟨q, hq⟩ := hpage
    rw [h.readByte_eq hq, hws.readByte_eq hq]
    refine congrArg some (hmem _ fun v hv => ?_)
    rw [show (q * 4096 + (a : Nat) % 4096) / 4096 = q by omega, hq, Owner.page.injEq] at hv
    exact hne hv.1
  · have hno : ∀ q, own q ≠ .page c (a / 4096) := fun q hq => hpage ⟨q, hq⟩
    rw [h.readByte_eq_none hc hno, hws.readByte_eq_none hc hno]

end

/-! ## A small address space -/

/-- The owners of a memory with one address space of one page, whose directory is at page 256, and
with three free pages. -/
def onePageOwner (p : Nat) : Owner :=
  if p = 256 then .dir
  else if p = 257 then .tab 256 0
  else if p = 258 then .page 256 0
  else if p = 259 ∨ p = 260 ∨ p = 261 then .free
  else .none

/-- The memory itself. -/
def onePage : Phys where
  mem :=
    let m := put (fun _ => 0) (256 * 4096 + 4 * 0) (bytes32 (pteOf 257))
    let m := put m (257 * 4096 + 4 * 0) (bytes32 (pteOf 258))
    let m := put m (260 * 4096 + 4 * 0) (bytes32 (261 * 4096))
    put m (259 * 4096 + 4 * 0) (bytes32 (260 * 4096))
  freelist := 259 * 4096

theorem entry_onePage (p i : Nat) (hi : i < 1024) :
    entry onePage.mem p i =
      if i = 0 then
        if p = 259 then 260 * 4096
        else if p = 260 then 261 * 4096
        else if p = 257 then pteOf 258
        else if p = 256 then pteOf 257
        else 0
      else 0 := by
  have hzero : entry (fun _ => 0) p i = 0 := by simp [entry, le32, le16]
  simp only [onePage, entry_putWord _ _ _ _ _ _ (show 0 < 1024 by decide) hi
    (show 260 * 4096 < 4294967296 by decide), entry_putWord _ _ _ _ _ _ (show 0 < 1024 by decide) hi
    (show 261 * 4096 < 4294967296 by decide), entry_putWord _ _ _ _ _ _ (show 0 < 1024 by decide) hi
    (show pteOf 258 < 4294967296 by decide), entry_putWord _ _ _ _ _ _ (show 0 < 1024 by decide) hi
    (show pteOf 257 < 4294967296 by decide), hzero]
  grind

theorem owned_onePage : Owned onePage onePageOwner [259, 260, 261] := by
  have hchain : FreeChain onePage.mem onePage.freelist [259, 260, 261] := by
    simp only [FreeChain, ← entry_zero, entry_onePage _ 0 (by decide)]
    decide
  have hpageTab : ∀ q d v, onePageOwner q = .page d v →
      ∃ t, onePageOwner t = .tab d (v / 1024) := by
    intro q d v hq
    refine ⟨257, ?_⟩
    unfold onePageOwner at hq ⊢
    grind
  have hentry := entry_onePage
  refine ⟨?_, hchain, ?_, by decide, ?_, ?_, ?_, hpageTab, ?_, ?_⟩ <;>
    unfold onePageOwner <;> grind

theorem mapsExactly_onePage : MapsExactly onePage.mem 256 1 := by
  refine (owned_onePage.mapsExactly_iff rfl (by decide)).mpr fun v => ⟨?_, fun hv => ⟨258, ?_⟩⟩
  · rintro ⟨q, hq⟩
    unfold onePageOwner at hq
    grind
  · obtain rfl : v = 0 := by omega
    rfl

end Xv6.Vm

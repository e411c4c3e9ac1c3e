import Xv6.Vm.Lookup

/-! # `copyuvm` isolates address spaces

The child of a `fork` reads what its parent reads, the two address spaces share no page, and no
write through one table shows through the other. -/

namespace Xv6.Vm

open Lib Run

/-- The page belongs to the address space of a directory: as the directory itself, as one of its
tables or as one of its pages. -/
def InSpace (m : Nat → UInt8) (d p : Nat) : Prop :=
  p = d ∨ ∃ v < 1048576, tableOf m d v = some p ∨ lookup m d v = some p

/-- **The directory `c` in the memory `m'` is an isolated copy** of the first `n` pages of the
directory `d` in the memory `m`. -/
structure IsolatedCopy (m : Nat → UInt8) (d n : Nat) (m' : Nat → UInt8) (c : Nat) : Prop where
  /-- The copy has the same pages. -/
  maps : MapsExactly m' c n
  /-- Through both tables the same bytes are read as before. -/
  reads : ∀ a : UserAddr, (a : Nat) / 4096 < n →
    ∃ b, readByte m d a = some b ∧ readByte m' d a = some b ∧ readByte m' c a = some b
  /-- The mappings of the original are unchanged. -/
  table : ∀ v < 1048576, tableOf m' d v = tableOf m d v ∧ lookup m' d v = lookup m d v
  /-- The pages of the original, its tables among them, are unchanged. -/
  memory : ∀ p, InSpace m d p → ∀ k < 4096, m' (p * 4096 + k) = m (p * 4096 + k)
  /-- The two share no page. -/
  disjoint : ∀ p, ¬ (InSpace m' d p ∧ InSpace m' c p)
  /-- Writes through the copy do not show through the original. -/
  original : ∀ (ws : List (UserAddr × UInt8)) (a : UserAddr),
    readByte (ws.foldl (writeByte c) m') d a = readByte m' d a
  /-- Writes through the original do not show through the copy. -/
  copy : ∀ (ws : List (UserAddr × UInt8)) (a : UserAddr),
    readByte (ws.foldl (writeByte d) m') c a = readByte m' c a

variable {s : Phys} {own : Nat → Owner} {fl : List Nat} {d : Nat}

theorem Owned.inSpace_iff (h : Owned s own fl) (hd : own d = .dir) (p : Nat) :
    InSpace s.mem d p ↔ p = d ∨ (own p).ofSpace d := by
  unfold InSpace
  refine or_congr_right ⟨?_, fun ho => ?_⟩
  · rintro ⟨v, hv, ht | hq⟩
    · rw [(h.tableOf_eq_some_iff hd hv).mp ht]
      simp [Owner.ofSpace]
    · rw [(h.lookup_eq_some_iff hd hv).mp hq]
      simp [Owner.ofSpace]
  · cases hp : own p with
    | tab d' i =>
        rw [hp] at ho
        obtain rfl : d' = d := by simpa [Owner.ofSpace] using ho
        have hi := (h.tabDir p d' i hp).2
        have hdiv : 1024 * i / 1024 = i := by omega
        refine ⟨1024 * i, by omega, .inl ((h.tableOf_eq_some_iff hd (by omega)).mpr ?_)⟩
        rw [hdiv]
        exact hp
    | page d' v =>
        rw [hp] at ho
        obtain rfl : d' = d := by simpa [Owner.ofSpace] using ho
        have hv := h.page_lt hp
        exact ⟨v, hv, .inr ((h.lookup_eq_some_iff hd hv).mpr hp)⟩
    | _ =>
        rw [hp] at ho
        cases ho

/-- Two address spaces share no page. -/
theorem Owned.disjoint_spaces (h : Owned s own fl) {c : Nat} (hd : own d = .dir)
    (hc : own c = .dir) (hne : c ≠ d) (p : Nat) : ¬ (InSpace s.mem d p ∧ InSpace s.mem c p) := by
  rw [h.inSpace_iff hd, h.inSpace_iff hc]
  rintro ⟨rfl | hpd, rfl | hpc⟩
  · exact hne rfl
  · rw [hd] at hpc
    cases hpc
  · rw [hc] at hpd
    cases hpd
  · rw [Owner.ofSpace_ne hpc hne.symm] at hpd
    cases hpd

/-- What `copyuvm` leaves behind is an isolated copy. -/
theorem Copied.isolatedCopy {u : Phys} {own' : Nat → Owner} {fl' : List Nat} {c n j : Nat}
    (h : Owned s own fl) (hd : own d = .dir) (hmaps : MapsExactly s.mem d n) (hn : n ≤ 524288)
    (hu : Owned u own' fl') (hb : Built own own' fl c) (hshape : Shape own' c n j)
    (hcopy : Copied s own d u own' c n) : IsolatedCopy s.mem d n u.mem c := by
  have hpages := (h.mapsExactly_iff hd (by omega)).mp hmaps
  have hsame := hb.same h hd
  have hd' : own' d = .dir := hsame.dir hd
  have hc' : own' c = .dir := hshape.dir
  have hne : c ≠ d := by
    rintro rfl
    cases hd.symm.trans ((h.free c).mp hb.mem)
  refine ⟨?_, fun a ha => ?_, fun v hv => ⟨?_, ?_⟩, fun p hp k hk => ?_, ?_, ?_, ?_⟩
  · exact (hu.mapsExactly_iff hc' (by omega)).mpr hshape.pages
  · obtain ⟨q, hq⟩ := (hpages _).mpr ha
    obtain ⟨q', hq'⟩ := (hshape.pages _).mpr ha
    have hoff : (a : Nat) % 4096 < 4096 := Nat.mod_lt _ (by decide)
    refine ⟨_, h.readByte_eq hq, ?_, ?_⟩
    · rw [hu.readByte_eq ((hsame.page q _).mpr hq), hcopy.keeps]
      rw [show (q * 4096 + (a : Nat) % 4096) / 4096 = q by omega, hq]
      exact Owner.noConfusion
    · rw [hu.readByte_eq hq', hcopy.bytes _ ha q' q hq' hq _ hoff]
  · exact h.tableOf_congr hu hd hd' hv fun t => hsame.tab t _
  · exact h.lookup_congr hu hd hd' hv fun q => hsame.page q v
  · refine hcopy.keeps _ ?_
    rw [show (p * 4096 + k) / 4096 = p by omega]
    intro hfree
    rcases (h.inSpace_iff hd p).mp hp with rfl | ho
    · cases hd.symm.trans hfree
    · rw [hfree] at ho
      cases ho
  · exact hu.disjoint_spaces hd' hc' hne
  · exact fun ws a => hu.readByte_writes hc' hd' hne.symm ws a
  · exact fun ws a => hu.readByte_writes hd' hc' hne ws a

/-- **`copyuvm` isolates the child from the parent**: for a directory that maps exactly the pages
below `PGROUNDUP(sz)` and with enough free pages it returns an isolated copy. -/
theorem copyuvm_isolatedCopy (s : Phys) (own : Nat → Owner) (fl : List Nat) (h : Owned s own fl)
    (d sz fuel : Nat) (hd : own d = .dir) (hsz : sz ≤ USERTOP)
    (hmaps : MapsExactly s.mem d (pagesOf sz))
    (hfree : 1 + pagesOf sz + tablesFor (pagesOf sz) ≤ fl.length) (hfuel : 524288 < fuel) :
    Post (copyuvm fuel (d * 4096) sz) (fun _ => False)
      (fun r u => ∃ c, r = some (c * 4096) ∧ IsolatedCopy s.mem d (pagesOf sz) u.mem c) s := by
  have hn := pagesOf_le hsz
  have hpages := (h.mapsExactly_iff hd (by omega)).mp hmaps
  refine post_copyuvm h hd rfl hsz (fun x hx hno => ?_) hfuel
    (fun own' fl' c j u hu hb hshape hcopy => ?_) fun own' fl' u hu hown hlost hshort => ?_
  · obtain ⟨q, hq⟩ := (hpages x).mpr hx
    exact absurd hq (hno q)
  · exact ⟨c, rfl, hcopy.isolatedCopy h hd hmaps hn hu hb hshape⟩
  · omega

theorem copyuvm_isolatedCopy_onePage :
    Post (copyuvm 524289 (256 * 4096) 1) (fun _ => False)
      (fun r u => ∃ c, r = some (c * 4096) ∧ IsolatedCopy onePage.mem 256 1 u.mem c) onePage :=
  copyuvm_isolatedCopy onePage onePageOwner [259, 260, 261] owned_onePage 256 1 524289 rfl
    (by decide) mapsExactly_onePage (by decide) (by decide)

end Xv6.Vm

import Xv6.Mkfs.Image

/-! # What `iappend` does

The blocks of the image belong to the inodes that store their numbers: no number is stored twice,
and all of them lie between the first data block and `freeblock`. Appending to a file takes new
blocks from `freeblock` on and leaves every other file as it is. -/

namespace Xv6.Mkfs

open Lib Fs

open Function (update update_eq_self update_idem update_of_ne update_self)

/-- The number of blocks of a file of a given length. -/
def blocks (length : Nat) : Nat := (length + (BSIZE - 1)) / BSIZE

/-- **Ownership**: the numbers stored in the cells are the blocks handed out so far, each of them
once. -/
structure Owned (f : Nat × Place → Nat) (free : Nat) : Prop where
  unique : Unique f
  range : ∀ x, f x ≠ 0 → firstData ≤ f x ∧ f x < free
  first : firstData ≤ free

namespace Owned

variable {f : Nat × Place → Nat} {free : Nat}

theorem fresh (h : Owned f free) (x : Nat × Place) : f x ≠ free := by
  intro hx
  have hpos : 0 < firstData := by decide
  have hfirst := h.first
  have hlt := (h.range x (by omega)).2
  omega

/-- Handing out the next block. -/
theorem take (h : Owned f free) (a : Nat × Place) : Owned (update f a free) (free + 1) := by
  have hfirst := h.first
  refine ⟨h.unique.update h.fresh a, fun x hx => ?_, by omega⟩
  by_cases hxa : x = a
  · rw [hxa, update_self]
    omega
  · rw [update_of_ne hxa] at hx ⊢
    have hrange := h.range x hx
    omega

end Owned

section Stored

variable {disk disk' : Disk} {D : Nat → Dinode} {d : Dinode} {i : Nat}

/-- A changed inode changes the numbers that this inode stores. -/
theorem stored_update {pl : Place} {addr : Nat}
    (hd : d.stored disk' = update ((D i).stored disk) pl addr)
    (hother : ∀ j, j ≠ i → (D j).stored disk' = (D j).stored disk) :
    stored disk' (update D i d) = update (stored disk D) (i, pl) addr := by
  funext x
  obtain ⟨j, q⟩ := x
  by_cases hj : j = i
  · subst hj
    rw [stored, update_self, hd]
    by_cases hq : q = pl
    · rw [hq, update_self, update_self]
    · rw [update_of_ne hq, update_of_ne (by intro h; cases h; exact hq rfl)]
      rfl
  · rw [stored, update_of_ne hj, hother j hj,
      update_of_ne (by intro h; cases h; exact hj rfl)]
    rfl

/-- The numbers stored in one inode. -/
theorem Owned.unique_of {free : Nat} (h : Owned (stored disk D) free) (i : Nat) :
    Unique ((D i).stored disk) := by
  intro pl pl' hpl heq
  have hpair := h.unique (i, pl) (i, pl') hpl heq
  cases hpair
  rfl

/-- The blocks of one inode are not those of another one. -/
theorem Owned.ne_of_ne {free : Nat} (h : Owned (stored disk D) free) {j : Nat} (hj : j ≠ i)
    {pl pl' : Place} (hpl : (D j).stored disk pl ≠ 0) :
    (D j).stored disk pl ≠ (D i).stored disk pl' := by
  intro heq
  have hpair := h.unique (j, pl) (i, pl') hpl heq
  cases hpair
  exact hj rfl

end Stored

/-- **What holds of an image** with the inodes `D`, of which each has `n` blocks and the contents
`c`. -/
structure Laid (s : Image) (D : Nat → Dinode) (n : Nat → Nat) (c : Nat → List UInt8) : Prop where
  holds : ∀ i, Holds s.img (D i) (n i) fun o => (c i).getD o 0
  owned : Owned (stored s.img D) s.freeblock
  /-- The blocks not handed out are zero. -/
  zero : ∀ b, s.freeblock ≤ b → s.img b = Bytes.zero
  last : s.freeblock ≤ size
  used : s.usedblocks = s.freeblock

/-- What an operation of `iappend` leaves as it is: the sectors before the data, and all the fields
of the inode but its size and addresses. -/
structure Kept (s s' : Image) (d d' : Dinode) : Prop where
  sector : ∀ b < firstData, s'.img b = s.img b
  freeinode : s'.freeinode = s.freeinode
  type : d'.type = d.type
  major : d'.major = d.major
  minor : d'.minor = d.minor
  nlink : d'.nlink = d.nlink

namespace Kept

theorem refl (s : Image) (d : Dinode) : Kept s s d d := ⟨fun _ _ => rfl, rfl, rfl, rfl, rfl, rfl⟩

theorem trans {s s' s'' : Image} {d d' d'' : Dinode} (h : Kept s s' d d') (h' : Kept s' s'' d' d'') :
    Kept s s'' d d'' :=
  ⟨fun b hb => (h'.sector b hb).trans (h.sector b hb), h'.freeinode.trans h.freeinode,
    h'.type.trans h.type, h'.major.trans h.major, h'.minor.trans h.minor, h'.nlink.trans h.nlink⟩

end Kept

variable {s s' : Image} {D : Nat → Dinode} {n : Nat → Nat} {c : Nat → List UInt8} {i : Nat}

theorem Laid.freeblock_lt (h : Laid s D n c) : s.freeblock < 4294967296 := by
  have hlast := h.last
  simp only [size] at hlast
  omega

/-- The blocks of an inode lie in front of `freeblock`. -/
theorem Laid.stored_lt (h : Laid s D n c) {pl : Place} (hpl : (D i).stored s.img pl ≠ 0) :
    (D i).stored s.img pl < s.freeblock := (h.owned.range (i, pl) hpl).2

/-! ## Finding the block -/

variable {d : Dinode}

/-- A block among the direct ones. -/
theorem Laid.direct (h : Laid s D n c) {fbn : Nat} (hfbn : fbn < NDIRECT) (hle : fbn ≤ n i)
    {x : Nat} (hrun : s.direct (D i) fbn hfbn = (s', d, x)) (hx : x < size)
    (hc : n i = fbn → (c i).length ≤ BSIZE * fbn) :
    Laid s' (update D i d) (update n i (max (n i) (fbn + 1))) c ∧
      x = blockNo s'.img d fbn ∧ Kept s s' (D i) d := by
  unfold Image.direct at hrun
  by_cases hzero : (D i).direct fbn = 0
  · rw [if_pos hzero] at hrun
    obtain ⟨rfl, rfl, rfl⟩ : s.take = s' ∧ _ = d ∧ s.freeblock = x := by
      simpa only [Prod.mk.injEq] using hrun
    have hno : ¬ fbn < n i := by
      rw [← (h.holds i).block fbn, blockNo_of_lt hfbn]
      exact fun hne => hne hzero
    have hn : n i = fbn := by omega
    have hlt := h.freeblock_lt
    have hset : ((D i).setAddr ⟨fbn, Nat.lt_succ_of_lt hfbn⟩ s.freeblock).stored s.img
        = update ((D i).stored s.img) (.block fbn) s.freeblock :=
      (D i).stored_setAddr hfbn hlt
    have hstored := stored_update (D := D) (i := i) hset fun _ _ => rfl
    have hblock (k : Nat) : blockNo s.img ((D i).setAddr ⟨fbn, Nat.lt_succ_of_lt hfbn⟩ s.freeblock) k =
        if k = n i then s.freeblock else blockNo s.img (D i) k := by
      have hk := congrFun hset (.block k)
      by_cases heq : k = n i
      · rw [if_pos heq]
        rw [heq, hn, update_self] at hk
        rw [heq, hn]
        exact hk
      · rw [if_neg heq]
        rwa [update_of_ne (by intro hpl; cases hpl; exact heq hn.symm)] at hk
    refine ⟨⟨fun j => ?_, ?_, fun b hb => h.zero b (Nat.le_of_succ_le hb), hx,
      congrArg (· + 1) h.used⟩, ?_, ⟨fun _ _ => rfl, rfl, rfl, rfl, rfl, rfl⟩⟩
    · by_cases hj : j = i
      · subst hj
        rw [update_self, update_self, hn, Nat.max_eq_right (Nat.le_succ _)]
        have hfree : s.freeblock ≠ 0 := by
          have hfirst := h.owned.first
          have hpos : 0 < firstData := by decide
          omega
        refine (hn ▸ h.holds j).grow (hn ▸ hblock) hfree ?_ ?_ fun _ _ => rfl
        · rw [(D j).indirect_setAddr_of_lt hfbn, (h.holds j).indirect, hn]
          omega
        · intro o ho
          show (s.img s.freeblock).byte o = _
          rw [h.zero s.freeblock le_rfl, Bytes.byte_zero, List.getD_eq_default]
          have := hc hn
          omega
      · rw [update_of_ne hj, update_of_ne hj]
        exact h.holds j
    · show Owned (stored s.img _) (s.freeblock + 1)
      rw [hstored]
      exact h.owned.take _
    · have := hblock fbn
      rw [if_pos hn.symm] at this
      exact this.symm
  · rw [if_neg hzero] at hrun
    obtain ⟨rfl, rfl, rfl⟩ : s = s' ∧ _ = d ∧ _ = x := by simpa only [Prod.mk.injEq] using hrun
    have hlt : fbn < n i := by
      rw [← (h.holds i).block fbn, blockNo_of_lt hfbn]
      exact hzero
    rw [Nat.max_eq_left hlt, update_eq_self, update_eq_self]
    exact ⟨h, (blockNo_of_lt hfbn).symm, Kept.refl _ _⟩

/-- What holds between the allocation of the indirect block and that of its entry. -/
structure Linked (s s' : Image) (D : Nat → Dinode) (i : Nat) (d : Dinode) : Prop where
  img : s'.img = s.img
  indirect : d.indirect ≠ 0
  owned : Owned (stored s.img (update D i d)) s'.freeblock
  block : ∀ k, blockNo s.img d k = blockNo s.img (D i) k
  le : s.freeblock ≤ s'.freeblock
  used : s'.usedblocks = s'.freeblock
  kept : Kept s s' (D i) d

/-- The indirect block is allocated when there is none. -/
theorem Laid.indirect (h : Laid s D n c) (hrun : s.indirect (D i) = (s', d)) :
    Linked s s' D i d := by
  unfold Image.indirect at hrun
  by_cases hzero : (D i).indirect = 0
  · rw [if_pos hzero] at hrun
    obtain ⟨rfl, rfl⟩ : s.take = s' ∧ _ = d := by simpa only [Prod.mk.injEq] using hrun
    have hlt := h.freeblock_lt
    have hset := (D i).stored_setAddr_indirect hzero hlt (h.zero s.freeblock le_rfl)
    have hstored := stored_update (D := D) (i := i) hset fun _ _ => rfl
    refine ⟨rfl, ?_, ?_, fun k => ?_, Nat.le_succ _, congrArg (· + 1) h.used,
      ⟨fun _ _ => rfl, rfl, rfl, rfl, rfl, rfl⟩⟩
    · rw [(D i).indirect_setAddr hlt]
      have hfirst := h.owned.first
      have hpos : 0 < firstData := by decide
      omega
    · show Owned _ (s.freeblock + 1)
      rw [hstored]
      exact h.owned.take _
    · have hk := congrFun hset (.block k)
      rwa [update_of_ne (by intro hpl; cases hpl)] at hk
  · rw [if_neg hzero] at hrun
    obtain ⟨rfl, rfl⟩ : s = s' ∧ _ = d := by simpa only [Prod.mk.injEq] using hrun
    refine ⟨rfl, hzero, ?_, fun _ => rfl, le_rfl, h.used, Kept.refl _ _⟩
    rw [update_eq_self]
    exact h.owned

/-- A block among those listed in the indirect block. -/
theorem Laid.entry (h : Laid s D n c) {s₁ : Image} {d₁ : Dinode} (h₁ : Linked s s₁ D i d₁)
    {fbn : Nat} (hfbn : NDIRECT ≤ fbn) (hmax : fbn < MAXFILE) (hle : fbn ≤ n i) {x : Nat}
    (hrun : s₁.entry d₁ fbn = some (s', d, x)) (hx : x < size)
    (hsame : fbn < n i → s₁ = s ∧ d₁ = D i) (hc : n i = fbn → (c i).length ≤ BSIZE * fbn) :
    Laid s' (update D i d) (update n i (max (n i) (fbn + 1))) c ∧
      x = blockNo s'.img d fbn ∧ Kept s s' (D i) d := by
  have hentry : blockNo s.img (D i) fbn = addrAt (s.img d₁.indirect) (fbn - NDIRECT) := by
    rw [← h₁.block, blockNo_of_ge hfbn h₁.indirect]
  have hread : s₁.rsect d₁.indirect = some (s.img d₁.indirect) := by
    unfold Image.entry Image.rsect at hrun
    unfold Image.rsect
    split at hrun
    · rename_i hlt
      rw [if_pos hlt, h₁.img]
    · cases hrun
  rw [Image.entry, hread] at hrun
  simp only [Option.bind_eq_bind, Option.bind_some] at hrun
  split at hrun
  · rename_i hzero
    obtain ⟨rfl, rfl, rfl⟩ : _ = s' ∧ d₁ = d ∧ s₁.freeblock = x := by
      simpa only [Option.pure_def, Option.some.injEq, Prod.mk.injEq] using hrun
    have hno : ¬ fbn < n i := by
      rw [← (h.holds i).block fbn, hentry]
      exact fun hne => hne hzero
    have hn : n i = fbn := by omega
    have hlt : s₁.freeblock < 4294967296 := by
      simp only [size] at hx
      omega
    have hrange := (h₁.owned.range (i, .indirect) (by
      rw [stored, update_self]
      exact h₁.indirect)).2
    rw [stored, update_self] at hrange
    have hindirect : d₁.indirect < s₁.freeblock := hrange
    -- the indirect block is listed by no other inode
    have hother (j : Nat) (hj : j ≠ i) (pl : Place) (hpl : (D j).stored s.img pl ≠ 0) :
        (D j).stored s.img pl ≠ d₁.indirect := by
      have hne : (update D i d₁ j).stored s.img pl
          ≠ (update D i d₁ i).stored s.img .indirect :=
        h₁.owned.ne_of_ne hj (by rw [update_of_ne hj]; exact hpl)
      rwa [update_of_ne hj, update_self] at hne
    have hself (k : Nat) (hk : blockNo s.img (D i) k ≠ 0) :
        blockNo s.img (D i) k ≠ d₁.indirect := by
      intro heq
      have huniq := h₁.owned.unique_of i
      rw [update_self] at huniq
      rw [← h₁.block] at hk heq
      exact Place.noConfusion (huniq (.block k) .indirect hk heq)
    have hset : d₁.stored (update s.img d₁.indirect
          (putAddr (s.img d₁.indirect) (fbn - NDIRECT) s₁.freeblock))
        = update (d₁.stored s.img) (.block fbn) s₁.freeblock :=
      Dinode.stored_putAddr h₁.indirect hfbn hmax hlt
    have hdisk : (s₁.take.wsect d₁.indirect (putAddr (s.img d₁.indirect) (fbn - NDIRECT)
        s₁.freeblock)).img = update s.img d₁.indirect
          (putAddr (s.img d₁.indirect) (fbn - NDIRECT) s₁.freeblock) := by
      rw [← h₁.img]
      rfl
    have hstored := stored_update (D := update D i d₁) (i := i)
      (by rw [update_self]; exact hset) fun j hj => by
        rw [update_of_ne hj]
        exact Dinode.stored_congr fun hne => update_of_ne (hother j hj .indirect hne) _ _
    rw [update_idem] at hstored
    have hblock (k : Nat) : blockNo (update s.img d₁.indirect
        (putAddr (s.img d₁.indirect) (fbn - NDIRECT) s₁.freeblock)) d₁ k =
          if k = n i then s₁.freeblock else blockNo s.img (D i) k := by
      have hk := congrFun hset (.block k)
      by_cases heq : k = n i
      · rw [if_pos heq]
        rw [heq, hn, update_self] at hk
        rw [heq, hn]
        exact hk
      · rw [if_neg heq, ← h₁.block]
        rwa [update_of_ne (by intro hpl; cases hpl; exact heq hn.symm)] at hk
    refine ⟨⟨fun j => ?_, ?_, fun b hb => ?_, hx, congrArg (· + 1) h₁.used⟩, ?_,
      h₁.kept.trans ⟨fun b hb => ?_, rfl, rfl, rfl, rfl, rfl⟩⟩
    · rw [hdisk]
      by_cases hj : j = i
      · subst hj
        rw [update_self, update_self, hn, Nat.max_eq_right (Nat.le_succ _)]
        have hfree : s₁.freeblock ≠ 0 := by omega
        refine (hn ▸ h.holds j).grow (hn ▸ hblock) hfree ?_ ?_ fun k hk => ?_
        · exact ⟨fun _ => by omega, fun _ => h₁.indirect⟩
        · intro o ho
          rw [update_of_ne (by omega), h.zero s₁.freeblock h₁.le, Bytes.byte_zero,
            List.getD_eq_default]
          have := hc hn
          omega
        · exact update_of_ne (hself k (((h.holds j).block k).mpr (by omega))) _ _
      · rw [update_of_ne hj, update_of_ne hj]
        exact (h.holds j).congr fun pl hpl => update_of_ne (hother j hj pl hpl) _ _
    · rw [hdisk, hstored]
      exact h₁.owned.take _
    · rw [hdisk]
      have hb' : s₁.freeblock + 1 ≤ b := hb
      rw [update_of_ne (by omega)]
      exact h.zero b (by have := h₁.le; omega)
    · rw [hdisk, hblock, if_pos hn.symm]
    · rw [hdisk, h₁.img]
      have hfirst := (h₁.owned.range (i, .indirect) (by
        rw [stored, update_self]
        exact h₁.indirect)).1
      rw [stored, update_self] at hfirst
      have hge : firstData ≤ d₁.indirect := hfirst
      exact update_of_ne (by omega) _ _
  · rename_i hne
    have hlt : fbn < n i := by
      rw [← (h.holds i).block fbn, hentry]
      exact hne
    obtain ⟨rfl, rfl⟩ := hsame hlt
    obtain ⟨rfl, rfl, rfl⟩ : s₁ = s' ∧ D i = d ∧ _ = x := by
      simpa only [Option.pure_def, Option.some.injEq, Prod.mk.injEq] using hrun
    rw [Nat.max_eq_left hlt, update_eq_self, update_eq_self]
    exact ⟨h, hentry.symm, Kept.refl _ _⟩

/-- **The block for an index** that is that of a block of the file or of the next one. -/
theorem Laid.address (h : Laid s D n c) {fbn : Nat} (hmax : fbn < MAXFILE) (hle : fbn ≤ n i)
    {x : Nat} (hrun : s.address (D i) fbn = some (s', d, x)) (hx : x < size)
    (hc : n i = fbn → (c i).length ≤ BSIZE * fbn) :
    Laid s' (update D i d) (update n i (max (n i) (fbn + 1))) c ∧
      x = blockNo s'.img d fbn ∧ Kept s s' (D i) d := by
  unfold Image.address at hrun
  split at hrun
  · rename_i hfbn
    exact h.direct hfbn hle (Option.some.inj hrun) hx hc
  · rename_i hfbn
    have hge : NDIRECT ≤ fbn := Nat.le_of_not_lt hfbn
    have hlinked : Linked s (s.indirect (D i)).1 D i (s.indirect (D i)).2 := h.indirect rfl
    refine h.entry hlinked hge hmax hle hrun hx (fun hlt => ?_) hc
    have hne : (D i).indirect ≠ 0 := (h.holds i).indirect.mpr (by omega)
    have hkeep : s.indirect (D i) = (s, D i) := if_neg hne
    rw [hkeep]
    exact ⟨rfl, rfl⟩

/-! ## Filling the block -/

/-- Appending to a list is a write behind its last byte. -/
theorem getD_append_eq_put (l bs : List UInt8) {base : Nat} (hbase : base ≤ l.length) (o : Nat) :
    (l ++ bs).getD (base + o) 0 =
      put (fun o => l.getD (base + o) 0) (l.length - base) bs o := by
  by_cases ho : base + o < l.length
  · rw [List.getD_append _ _ _ _ ho, put_of_lt _ _ _ (by omega)]
  · have hsplit : o = (l.length - base) + (base + o - l.length) := by omega
    rw [List.getD_append_right _ _ _ _ (by omega)]
    by_cases hin : base + o - l.length < bs.length
    · conv_rhs => rw [hsplit]
      rw [put_of_mem _ _ _ hin 0]
    · rw [put_of_ge _ _ _ (by omega), List.getD_eq_default _ _ (by omega),
        List.getD_eq_default _ _ (by omega)]

/-- **Writing the bytes** into the block of the file's end. -/
theorem Laid.write (h : Laid s D n c) {k : Nat} (hk : k < n i) (hdiv : (c i).length / 512 = k)
    (bs : List UInt8) (hbs : (c i).length - k * 512 + bs.length ≤ 512) :
    Laid (s.wsect (blockNo s.img (D i) k)
        ((s.img (blockNo s.img (D i) k)).blit ((c i).length - k * 512) bs))
      D n (update c i (c i ++ bs)) := by
  have hkne : (D i).stored s.img (.block k) ≠ 0 := ((h.holds i).block k).mpr hk
  have hlt : blockNo s.img (D i) k < s.freeblock := h.stored_lt hkne
  have hother (j : Nat) (hj : j ≠ i) (pl : Place) (hpl : (D j).stored s.img pl ≠ 0) :
      (D j).stored s.img pl ≠ (D i).stored s.img (.block k) := h.owned.ne_of_ne hj hpl
  have hindirect (j : Nat) (hne : (D j).indirect ≠ 0) :
      (D j).indirect ≠ blockNo s.img (D i) k := by
    intro heq
    have hpair := h.owned.unique (j, .indirect) (i, .block k) hne heq
    cases hpair
  have hstored : stored (update s.img (blockNo s.img (D i) k)
      ((s.img (blockNo s.img (D i) k)).blit ((c i).length - k * 512) bs)) D = stored s.img D := by
    funext x
    exact congrFun (Dinode.stored_congr fun hne =>
      update_of_ne (hindirect x.1 hne) _ _) x.2
  refine ⟨fun j => ?_, ?_, fun b hb => ?_, h.last, h.used⟩
  · by_cases hj : j = i
    · subst hj
      rw [update_self]
      refine (h.holds j).write (h.owned.unique_of j) hk (fun o ho => ?_) fun k' hk' hne o ho => ?_
      · rw [Bytes.byte_blit _ (show _ ≤ BSIZE from hbs), Nat.mul_comm BSIZE k,
          getD_append_eq_put _ _ (by simp only [BSIZE]; omega)]
        have hput {f g : Nat → UInt8} {a : Nat} (hfg : f o = g o) : put f a bs o = put g a bs o := by
          unfold put
          rw [hfg]
        apply hput
        rw [(h.holds j).byte k hk o ho, Nat.mul_comm BSIZE k]
      · simp only [BSIZE] at ho ⊢
        by_cases hin : 512 * k' + o < (c j).length
        · rw [List.getD_append _ _ _ _ hin]
        · rw [List.getD_append_right _ _ _ _ (by omega), List.getD_eq_default _ _ (by omega),
            List.getD_eq_default _ _ (by omega)]
    · rw [update_of_ne hj]
      exact (h.holds j).congr fun pl hpl => update_of_ne (hother j hj pl hpl) _ _
  · have howned := h.owned
    rw [← hstored] at howned
    exact howned
  · have hb' : s.freeblock ≤ b := hb
    exact (update_of_ne (by omega) _ _).trans (h.zero b hb')

/-! ## The loop -/

theorem blocks_le (l : Nat) : l ≤ BSIZE * blocks l := by
  simp only [blocks, BSIZE]
  omega

theorem of_guard {P : Prop} [Decidable P] {u : Unit} (h : (guard P : Option Unit) = some u) : P := by
  unfold guard at h
  split at h
  · assumption
  · cases h

theorem of_rsect {sec : Nat} {buf : Block} (h : s.rsect sec = some buf) :
    sec < size ∧ buf = s.img sec := by
  unfold Image.rsect at h
  split at h
  · exact ⟨by assumption, (Option.some.inj h).symm⟩
  · cases h

/-- One iteration of the loop. -/
theorem Laid.iteration {p : List UInt8} {s₁ : Image} {d₁ : Dinode} {x : Nat}
    (h : Laid s D (fun j => blocks (c j).length) c) (hp : p ≠ [])
    (hmax : (c i).length / 512 < MAXFILE)
    (haddr : s.address (D i) ((c i).length / 512) = some (s₁, d₁, x)) (hx : x < size) {bs : List UInt8}
    (hbs : bs = p.take (min p.length (((c i).length / 512 + 1) * 512 - (c i).length))) :
    Laid (s₁.wsect x ((s₁.img x).blit ((c i).length - (c i).length / 512 * 512) bs))
        (update D i d₁) (fun j => blocks (update c i (c i ++ bs) j).length)
        (update c i (c i ++ bs)) ∧
      Kept s (s₁.wsect x ((s₁.img x).blit ((c i).length - (c i).length / 512 * 512) bs)) (D i) d₁ := by
  have hpos : 0 < p.length := List.length_pos_iff.mpr hp
  have hlen : bs.length = min p.length (((c i).length / 512 + 1) * 512 - (c i).length) := by
    rw [hbs, List.length_take]
    omega
  have hle : (c i).length / 512 ≤ blocks (c i).length := by
    simp only [blocks, BSIZE]
    omega
  have hfull : blocks (c i).length = (c i).length / 512 →
      (c i).length ≤ BSIZE * ((c i).length / 512) := by
    intro heq
    rw [← heq]
    exact blocks_le _
  obtain ⟨h₁, hblock, hkept⟩ := h.address hmax hle haddr hx hfull
  have hself : update D i d₁ i = d₁ := update_self ..
  have hcount : max (blocks (c i).length) ((c i).length / 512 + 1) = blocks (c i ++ bs).length := by
    rw [List.length_append, hlen]
    simp only [blocks, BSIZE]
    omega
  have hn : update (fun j => blocks (c j).length) i
      (max (blocks (c i).length) ((c i).length / 512 + 1)) =
        fun j => blocks (update c i (c i ++ bs) j).length := by
    funext j
    by_cases hj : j = i
    · rw [hj, update_self, update_self]
      exact hcount
    · rw [update_of_ne hj, update_of_ne hj]
  have hbelow : (c i).length / 512 < update (fun j => blocks (c j).length) i
      (max (blocks (c i).length) ((c i).length / 512 + 1)) i := by
    rw [update_self]
    omega
  have hw := h₁.write (i := i) hbelow rfl bs (by rw [hlen]; omega)
  rw [hself, ← hblock, hn] at hw
  refine ⟨hw, hkept.trans ⟨fun b hb => ?_, rfl, rfl, rfl, rfl, rfl⟩⟩
  have hne : stored s₁.img (update D i d₁) (i, .block ((c i).length / 512)) ≠ 0 := by
    have hblock' := ((h₁.holds i).block ((c i).length / 512)).mpr hbelow
    exact hblock'
  have hfirst := (h₁.owned.range _ hne).1
  have hxeq : stored s₁.img (update D i d₁) (i, .block ((c i).length / 512)) = x := by
    rw [hblock, stored, hself]
    rfl
  rw [hxeq] at hfirst
  exact update_of_ne (by omega) _ _

/-- **The loop of `iappend`** appends its bytes to the contents. -/
theorem Laid.iappendLoop {fuel off : Nat} {p : List UInt8} {off' : Nat}
    (h : Laid s D (fun j => blocks (c j).length) c) (hoff : (c i).length = off)
    (hfuel : p.length ≤ fuel) (hrun : s.iappendLoop fuel (D i) off p = some (s', d, off')) :
    Laid s' (update D i d)
        (fun j => blocks (update c i (c i ++ p) j).length)
        (update c i (c i ++ p)) ∧
      off' = off + p.length ∧ Kept s s' (D i) d := by
  induction fuel generalizing s D c off p with
  | zero =>
      have hp : p = [] := List.length_eq_zero_iff.mp (Nat.le_zero.mp hfuel)
      obtain ⟨rfl, rfl, rfl⟩ : s = s' ∧ D i = d ∧ off = off' := by
        simpa only [Image.iappendLoop, Option.some.injEq, Prod.mk.injEq] using hrun
      subst hp
      rw [List.append_nil, update_eq_self, update_eq_self]
      exact ⟨h, rfl, Kept.refl _ _⟩
  | succ fuel ih =>
      by_cases hp : p = []
      · rw [Image.iappendLoop, if_pos hp] at hrun
        obtain ⟨rfl, rfl, rfl⟩ : s = s' ∧ D i = d ∧ off = off' := by
          simpa only [Option.some.injEq, Prod.mk.injEq] using hrun
        subst hp
        rw [List.append_nil, update_eq_self, update_eq_self]
        exact ⟨h, rfl, Kept.refl _ _⟩
      · rw [Image.iappendLoop, if_neg hp] at hrun
        simp only [Option.bind_eq_bind, Option.bind_eq_some_iff] at hrun
        obtain ⟨u, hguard, ⟨s₁, d₁, x⟩, haddr, buf, hread, hrest⟩ := hrun
        obtain ⟨hx, rfl⟩ := of_rsect hread
        subst hoff
        obtain ⟨h₁, hkept⟩ := h.iteration hp (of_guard hguard) haddr hx rfl
        have hpos : 0 < p.length := List.length_pos_iff.mpr hp
        have hself : update D i d₁ i = d₁ := update_self ..
        have hlen : (update c i (c i ++ p.take (min p.length
            (((c i).length / 512 + 1) * 512 - (c i).length))) i).length =
              (c i).length + min p.length (((c i).length / 512 + 1) * 512 - (c i).length) := by
          rw [update_self, List.length_append, List.length_take, Nat.min_assoc,
            Nat.min_comm _ p.length, ← Nat.min_assoc, Nat.min_self]
        obtain ⟨h₂, hoff', hkept'⟩ := ih h₁ hlen (p := p.drop (min p.length
            (((c i).length / 512 + 1) * 512 - (c i).length)))
          (by rw [List.length_drop]; omega) (by rw [hself]; exact hrest)
        rw [update_self, update_idem, update_idem, List.append_assoc,
          List.take_append_drop] at h₂
        rw [hself] at hkept'
        refine ⟨h₂, ?_, hkept.trans hkept'⟩
        rw [hoff', List.length_drop]
        omega

end Xv6.Mkfs

import Xv6.Mkfs.Main
import Mathlib.Data.List.TakeDrop

/-! # When the images of `mkfs` are well formed

An image is well formed if its inodes are where the kernel looks for them, have no holes, share no
blocks, and have their blocks marked in the bitmap. The root directory gets a hole when its entries
fill a whole number of blocks, and the inodes reach the bitmap when there are too many files; in
all other cases the image is well formed. -/

namespace Xv6.Mkfs

open Lib Fs

open Function (update update_idem update_of_ne update_self)

variable {s s' : Image} {D : Nat → Dinode} {n : Nat → Nat} {c : Nat → List UInt8} {i : Nat}

/-- **A well-formed image.** -/
structure WellFormed (s : Image) : Prop where
  /-- An inode in use has a block for every index below the end of the file. -/
  noHole : ∀ i, 0 < i → i < s.freeinode → ∀ k < blocks (s.inode i).size.toNat,
    blockNo s.img (s.inode i) k ≠ 0
  /-- No block number is stored twice. -/
  distinct : Unique (stored s.img s.inode)
  range : ∀ x, stored s.img s.inode x ≠ 0 →
    firstData ≤ stored s.img s.inode x ∧ stored s.img s.inode x < s.freeblock
  /-- The bitmap has the bits of the blocks in use. -/
  bits : ∀ b < BPB, bitAt (s.img bitmap) b = true ↔ b < s.freeblock
  /-- No inode lies in the bitmap or among the data. -/
  inodes : ∀ i, 0 < i → i < s.freeinode → IBLOCK i < bitmap

/-! ## The number of inodes -/

theorem freeinode_winode {d : Dinode} (h : s.winode i d = some s') :
    s'.freeinode = s.freeinode := by
  rw [of_winode h]
  rfl

theorem freeinode_address {d d' : Dinode} {fbn x : Nat} (h : s.address d fbn = some (s', d', x)) :
    s'.freeinode = s.freeinode := by
  unfold Image.address at h
  split at h
  · unfold Image.direct at h
    split at h
    · cases h
      rfl
    · cases h
      rfl
  · have hind : (s.indirect d).1.freeinode = s.freeinode := by
      unfold Image.indirect
      split <;> rfl
    simp only [Image.entry, Option.bind_eq_bind, Option.bind_eq_some_iff] at h
    obtain ⟨buf, -, hret⟩ := h
    rw [← hind]
    split at hret
    · cases hret
      rfl
    · cases hret
      rfl

variable {p : List UInt8} {files : List InFile}

theorem freeinode_iappendLoop {fuel : Nat} {d d' : Dinode} {off off' : Nat}
    (h : s.iappendLoop fuel d off p = some (s', d', off')) : s'.freeinode = s.freeinode := by
  induction fuel generalizing s d off p with
  | zero =>
      cases h
      rfl
  | succ fuel ih =>
      rw [Image.iappendLoop] at h
      split at h
      · cases h
        rfl
      · simp only [Option.bind_eq_bind, Option.bind_eq_some_iff] at h
        obtain ⟨-, -, ⟨s₁, d₁, x⟩, haddr, buf, -, hrest⟩ := h
        have hsame := freeinode_address haddr
        exact (ih hrest).trans hsame

theorem freeinode_iappend (h : s.iappend i p = some s') : s'.freeinode = s.freeinode := by
  simp only [Image.iappend, Option.bind_eq_bind, Option.bind_eq_some_iff] at h
  obtain ⟨din, -, ⟨s₁, d, off⟩, hloop, hwrite⟩ := h
  exact (freeinode_winode hwrite).trans (freeinode_iappendLoop hloop)

theorem freeinode_copy {reads : List Piece} (h : s.copy i reads = some s') :
    s'.freeinode = s.freeinode := by
  induction reads generalizing s with
  | nil =>
      cases h
      rfl
  | cons r reads ih =>
      rw [Image.copy, List.foldlM_cons] at h
      obtain ⟨s₁, hone, hrest⟩ := Option.bind_eq_some_iff.mp h
      exact (ih hrest).trans (freeinode_iappend hone)

theorem freeinode_ialloc {type : Int16} {inum : Nat} (h : s.ialloc type = some (s', inum)) :
    s'.freeinode = s.freeinode + 1 := by
  simp only [Image.ialloc, Option.bind_eq_bind, Option.bind_eq_some_iff] at h
  obtain ⟨s₁, hwrite, hret⟩ := h
  cases hret
  exact freeinode_winode hwrite

theorem freeinode_addAll {rootino : Nat} (h : files.foldlM (Image.add rootino) s = some s') :
    s'.freeinode = s.freeinode + files.length := by
  induction files generalizing s with
  | nil =>
      cases h
      rfl
  | cons f files ih =>
      rw [List.foldlM_cons] at h
      obtain ⟨s₁, hone, hrest⟩ := Option.bind_eq_some_iff.mp h
      simp only [Image.add, Option.bind_eq_bind, Option.bind_eq_some_iff] at hone
      obtain ⟨_, -, _, -, ⟨s₂, inum⟩, halloc, s₃, hentry, hcopy⟩ := hone
      have hfree : s₁.freeinode = s.freeinode + 1 :=
        (freeinode_copy hcopy).trans ((freeinode_iappend hentry).trans (freeinode_ialloc halloc))
      rw [ih hrest, hfree, List.length_cons]
      omega

/-- **One inode for the root and one for each file**, whether or not there is room for them. -/
theorem freeinode_of_mkfs {pad : Block} (h : mkfs pad files = some s) :
    s.freeinode = files.length + 2 := by
  simp only [mkfs, Option.bind_eq_bind, Option.bind_eq_some_iff] at h
  obtain ⟨_, -, ⟨s₁, rootino⟩, halloc, _, -, s₂, hdot, s₃, hdotdot, s₀, hfiles, hfinish⟩ := h
  simp only [Image.finish, Image.balloc, Option.bind_eq_bind, Option.bind_eq_some_iff] at hfinish
  obtain ⟨din, -, s₄, hwrite, _, -, hret⟩ := hfinish
  have hlast : s.freeinode = s₄.freeinode := by
    rw [← Option.some.inj hret]
    rfl
  have hone : (Image.start pad).freeinode = 1 := rfl
  rw [hlast, freeinode_winode hwrite, freeinode_addAll hfiles, freeinode_iappend hdotdot,
    freeinode_iappend hdot, freeinode_ialloc halloc, hone]
  omega

/-! ## The length of the root directory -/

theorem length_direntBytes (de : Dirent) : (direntBytes de).length = DIRENT := by
  rw [direntBytes, List.length_append, length_bytes16, List.takeD_length]
  rfl

theorem length_addAll {inum : Nat} (hinum : ROOTINO < inum)
    (files : List InFile) :
    (addAll c inum files ROOTINO).length = (c ROOTINO).length + DIRENT * files.length := by
  induction files generalizing c inum with
  | nil => rfl
  | cons f files ih =>
      rw [addAll, ih (Nat.lt_succ_of_lt hinum), addContents,
        update_of_ne (Nat.ne_of_lt hinum), update_self, List.length_append,
        length_direntBytes, List.length_cons, Nat.mul_succ]
      omega

theorem length_root (files : List InFile) :
    (contents files ROOTINO).length = DIRENT * (files.length + 2) := by
  rw [contents, length_addAll (by decide), dots, update_self, List.length_append,
    length_direntBytes, length_direntBytes, Nat.mul_add]
  omega

/-! ## Well-formedness -/

/-- A directory that fills a whole number of blocks is given one more, which it does not have. -/
theorem Written.hole (h : Written s files) (hfull : (files.length + 2) % 32 = 0) :
    ¬ WellFormed s := by
  intro hwf
  have hlen := length_root files
  have hroot := h.root
  have hfree := h.freeinode
  have hnone : ¬ (contents files ROOTINO).length / BSIZE <
      blocks (contents files ROOTINO).length := by
    rw [hlen]
    simp only [blocks, BSIZE, DIRENT]
    omega
  refine hnone (((h.laid.holds ROOTINO).block _).mp ?_)
  refine hwf.noHole ROOTINO Nat.one_pos (by rw [hfree, ROOTINO]; omega) _ ?_
  rw [hroot, hlen]
  simp only [blocks, BSIZE, DIRENT]
  omega

/-- Otherwise there are no holes. -/
theorem Written.wellFormed (h : Written s files) (hle : files.length + 2 ≤ inodes)
    (hfull : (files.length + 2) % 32 ≠ 0) : WellFormed s := by
  refine ⟨fun i hi hi' k hk => ((h.laid.holds i).block k).mpr ?_, h.laid.owned.unique,
    h.laid.owned.range, fun b _ => ?_, fun i _ hi' => iblock_lt ?_⟩
  · by_cases hroot : i = ROOTINO
    · subst hroot
      rw [h.root, length_root] at hk
      rw [length_root]
      simp only [blocks, BSIZE, DIRENT] at hk ⊢
      omega
    · rwa [h.size i hroot] at hk
  · rw [h.bit, decide_eq_true_iff]
  · rw [h.freeinode] at hi'
    omega

/-! ## Runs that come to an end -/

theorem rsect_of_lt {sec : Nat} (h : sec < size) : s.rsect sec = some (s.img sec) := if_pos h

/-- There is a block for every index while the disk is not full. -/
theorem Laid.exists_address (h : Laid s D n c) (hfree : s.freeblock + 2 ≤ size) (i fbn : Nat) :
    ∃ s' d x, s.address (D i) fbn = some (s', d, x) ∧ x < size ∧
      s'.freeblock ≤ s.freeblock + 2 := by
  unfold Image.address
  by_cases hfbn : fbn < NDIRECT
  · rw [dif_pos hfbn, Image.direct]
    by_cases hzero : (D i).direct fbn = 0
    · rw [if_pos hzero]
      exact ⟨_, _, _, rfl, by omega, Nat.le_succ _⟩
    · rw [if_neg hzero]
      have hlt : (D i).stored s.img (.block fbn) < s.freeblock :=
        h.stored_lt (by rw [Dinode.stored, blockNo_of_lt hfbn]; exact hzero)
      rw [Dinode.stored, blockNo_of_lt hfbn] at hlt
      exact ⟨_, _, _, rfl, by omega, Nat.le_add_right _ _⟩
  · rw [dif_neg hfbn]
    have hge : NDIRECT ≤ fbn := Nat.le_of_not_lt hfbn
    have hlinked : Linked s (s.indirect (D i)).1 D i (s.indirect (D i)).2 := h.indirect rfl
    have hnext : (s.indirect (D i)).1.freeblock ≤ s.freeblock + 1 := by
      unfold Image.indirect
      split
      · exact le_rfl
      · exact Nat.le_succ _
    have hrange (pl : Place) (hpl : (s.indirect (D i)).2.stored s.img pl ≠ 0) :
        (s.indirect (D i)).2.stored s.img pl < (s.indirect (D i)).1.freeblock := by
      have hlt := (hlinked.owned.range (i, pl) (by rw [stored, update_self]; exact hpl)).2
      rwa [stored, update_self] at hlt
    have hindirect : (s.indirect (D i)).2.indirect < size := by
      have hlt : (s.indirect (D i)).2.indirect < (s.indirect (D i)).1.freeblock :=
        hrange .indirect hlinked.indirect
      omega
    rw [Image.entry, rsect_of_lt hindirect]
    simp only [Option.bind_eq_bind, Option.bind_some]
    split
    · refine ⟨_, _, _, rfl, by omega, ?_⟩
      show (s.indirect (D i)).1.freeblock + 1 ≤ _
      omega
    · rename_i hne
      rw [hlinked.img, ← blockNo_of_ge hge hlinked.indirect] at hne ⊢
      have hlt : blockNo s.img (s.indirect (D i)).2 fbn < (s.indirect (D i)).1.freeblock :=
        hrange (.block fbn) hne
      exact ⟨_, _, _, rfl, by omega, by omega⟩

theorem iappendLoop_nil (fuel : Nat) (s : Image) (d : Dinode) (off : Nat) :
    s.iappendLoop fuel d off [] = some (s, d, off) := by
  cases fuel with
  | zero => rfl
  | succ fuel => rw [Image.iappendLoop, if_pos rfl]

/-- The loop of `iappend` comes to its end if there is room for the bytes. -/
theorem Laid.exists_loop (fuel : Nat) (h : Laid s D (fun j => blocks (c j).length) c)
    (hlen : (c i).length + p.length ≤ MAXFILE * 512)
    (hfree : s.freeblock + 2 * (blocks ((c i).length + p.length) - (c i).length / 512) ≤ size) :
    ∃ s' d off, s.iappendLoop fuel (D i) (c i).length p = some (s', d, off) ∧
      s'.freeblock ≤ s.freeblock +
        2 * (blocks ((c i).length + p.length) - (c i).length / 512) := by
  induction fuel generalizing s D c p with
  | zero => exact ⟨_, _, _, rfl, Nat.le_add_right _ _⟩
  | succ fuel ih =>
      by_cases hp : p = []
      · rw [Image.iappendLoop, if_pos hp]
        exact ⟨_, _, _, rfl, Nat.le_add_right _ _⟩
      · have hpos : 0 < p.length := List.length_pos_iff.mpr hp
        have hmax : (c i).length / 512 < MAXFILE := by omega
        have hmore : 1 ≤ blocks ((c i).length + p.length) - (c i).length / 512 := by
          simp only [blocks, BSIZE]
          omega
        obtain ⟨s₁, d₁, x, haddr, hx, hfree₁⟩ := h.exists_address (by omega) i ((c i).length / 512)
        obtain ⟨h₁, -⟩ := h.iteration hp hmax haddr hx rfl
        have hself : update D i d₁ i = d₁ := update_self ..
        have hlen₁ : (update c i (c i ++ p.take (min p.length
            (((c i).length / 512 + 1) * 512 - (c i).length))) i).length =
              (c i).length + min p.length (((c i).length / 512 + 1) * 512 - (c i).length) := by
          rw [update_self, List.length_append, List.length_take, Nat.min_assoc,
            Nat.min_comm _ p.length, ← Nat.min_assoc, Nat.min_self]
        rw [Image.iappendLoop, if_neg hp]
        simp only [guard, if_pos hmax, haddr, rsect_of_lt hx, Option.pure_def, Option.bind_eq_bind,
          Option.bind_some]
        by_cases hlast : p.length ≤ ((c i).length / 512 + 1) * 512 - (c i).length
        · -- the block has room for all the bytes that are left
          rw [Nat.min_eq_left hlast, List.drop_length, iappendLoop_nil]
          exact ⟨_, _, _, rfl, by show s₁.freeblock ≤ _; omega⟩
        · rw [Nat.min_eq_right (by omega)] at hlen₁ h₁ ⊢
          have hsum : (c i).length + (((c i).length / 512 + 1) * 512 - (c i).length) +
              (p.length - (((c i).length / 512 + 1) * 512 - (c i).length)) =
                (c i).length + p.length := by omega
          have hdiv : ((c i).length + (((c i).length / 512 + 1) * 512 - (c i).length)) / 512 =
              (c i).length / 512 + 1 := by omega
          have hih := ih (p := p.drop (((c i).length / 512 + 1) * 512 - (c i).length)) h₁
          rw [hlen₁, List.length_drop, hsum, hdiv, hself] at hih
          obtain ⟨s', d, off, hrun, hle⟩ := hih hlen (by
            show s₁.freeblock + _ ≤ _
            omega)
          refine ⟨s', d, off, hrun, Nat.le_trans hle ?_⟩
          show s₁.freeblock + _ ≤ _
          omega

/-- An inode in front of the bitmap can be read and written. -/
theorem winode_of_lt (hi : i < inodes) (d : Dinode) :
    s.winode i d = some (s.wsect (IBLOCK i) (putDinode (s.img (IBLOCK i)) i d)) := by
  have hlt : IBLOCK i < size := Nat.lt_trans (iblock_lt hi) (by decide)
  rw [Image.winode, rsect_of_lt hlt]
  rfl

theorem rinode_of_lt (hi : i < inodes) : s.rinode i = some (dinodeAt (s.img (IBLOCK i)) i) := by
  have hlt : IBLOCK i < size := Nat.lt_trans (iblock_lt hi) (by decide)
  rw [Image.rinode, rsect_of_lt hlt]
  rfl

theorem exists_ialloc (h : s.freeinode < inodes) (type : Int16) :
    ∃ s', s.ialloc type = some (s', s.freeinode) ∧ s'.freeblock = s.freeblock := by
  rw [Image.ialloc, winode_of_lt h]
  exact ⟨_, rfl, rfl⟩

/-- A new entry in a directory of less than the largest size takes at most two blocks. -/
theorem Inv.exists_iappend (h : Inv s c) (hi : 0 < i) (hi' : i < s.freeinode) (de : Dirent)
    (hdvd : (c i).length % DIRENT = 0) (hlen : (c i).length + DIRENT ≤ MAXFILE * 512)
    (hfree : s.freeblock + 2 ≤ Mkfs.size) :
    ∃ s', s.iappend i (direntBytes de) = some s' ∧ s'.freeblock ≤ s.freeblock + 2 := by
  have hin : i < inodes := Nat.lt_of_lt_of_le hi' h.le
  have hinode : dinodeAt (s.img (IBLOCK i)) i = s.inode i := (if_pos ⟨hi, hi'⟩).symm
  have hone : blocks ((c i).length + (direntBytes de).length) - (c i).length / 512 = 1 := by
    rw [length_direntBytes]
    simp only [blocks, BSIZE, DIRENT] at hdvd ⊢
    omega
  obtain ⟨s₁, d, off, hloop, hle⟩ := h.laid.exists_loop (i := i)
    (direntBytes de).length (p := direntBytes de) (by rw [length_direntBytes]; exact hlen)
    (by rw [hone]; omega)
  rw [hone] at hle
  rw [Image.iappend, rinode_of_lt hin]
  simp only [Option.bind_eq_bind, Option.bind_some, hinode, h.size, hloop, winode_of_lt hin]
  exact ⟨_, rfl, by show s₁.freeblock ≤ _; omega⟩

/-- An input file without contents. -/
def InFile.Empty (f : InFile) : Prop := 47 ∉ f.argv ∧ f.argv ≠ [] ∧ f.reads = []

/-- Files without contents are added as long as there are inodes and blocks for the entries. -/
theorem Inv.exists_addAll (h : Inv s c) (hroot : ROOTINO < s.freeinode)
    (hempty : ∀ f ∈ files, f.Empty) (hle : s.freeinode + files.length ≤ Mkfs.inodes)
    (hlen : (c ROOTINO).length = DIRENT * s.freeinode)
    (hfree : s.freeblock + 2 * files.length ≤ Mkfs.size) :
    ∃ s', files.foldlM (Image.add ROOTINO) s = some s' ∧
      s'.freeblock ≤ s.freeblock + 2 * files.length := by
  induction files generalizing s c with
  | nil => exact ⟨s, rfl, le_rfl⟩
  | cons f files ih =>
      have hinodes : Mkfs.inodes = 208 := by decide
      rw [List.length_cons] at hle hfree ⊢
      obtain ⟨hslash, hname, hreads⟩ := hempty f List.mem_cons_self
      have hlt : s.freeinode < Mkfs.inodes := by omega
      obtain ⟨s₁, halloc, hsame₁⟩ := exists_ialloc hlt T_FILE
      have hne : s.freeinode ≠ ROOTINO := Nat.ne_of_gt hroot
      obtain ⟨h₁, -, hfree₁⟩ := h.ialloc hlt (if_neg hne).symm halloc
      obtain ⟨s₂, hentry, hle₂⟩ := h₁.exists_iappend (i := ROOTINO) Nat.one_pos (by rw [hfree₁]; omega)
        ⟨s.freeinode, f.name⟩ (by rw [hlen]; exact Nat.mul_mod_right _ _)
        (by rw [hlen]; simp only [DIRENT, MAXFILE, NDIRECT, NINDIRECT]; omega)
        (by rw [hsame₁]; omega)
      have hadd : s.add ROOTINO f = some s₂ := by
        simp only [Image.add, guard, if_pos hslash, if_pos hname, halloc, hentry, hreads,
          Image.copy, List.foldlM_nil, Option.pure_def, Option.bind_eq_bind, Option.bind_some]
      obtain ⟨h₂, hfree₂⟩ := h.add hroot hlt hadd
      obtain ⟨s', hrun, hle'⟩ := ih h₂ (by omega) (fun g hg => hempty g (.tail _ hg))
        (by omega) (by
          rw [addContents, update_of_ne (Nat.ne_of_lt hroot), update_self,
            List.length_append, length_direntBytes, hlen, hfree₂, Nat.mul_succ]) (by omega)
      refine ⟨s', ?_, by omega⟩
      rw [List.foldlM_cons, hadd]
      exact hrun

/-- **`mkfs` comes to its end** on files without contents. -/
theorem exists_mkfs (pad : Block) (files : List InFile) (hempty : ∀ f ∈ files, f.Empty)
    (hle : files.length ≤ 206) : ∃ s, mkfs pad files = some s := by
  have hinodes : Mkfs.inodes = 208 := by decide
  have hpos : 0 < ROOTINO := by decide
  have hsize : Mkfs.size = 1024 := rfl
  have hfirst : (Image.start pad).freeblock = 29 := rfl
  have hone : (Image.start pad).freeinode = ROOTINO := rfl
  have hlt : (Image.start pad).freeinode < Mkfs.inodes := by rw [hone]; decide
  have hmax : 2 * DIRENT ≤ MAXFILE * 512 := by decide
  -- the root directory with its two entries
  obtain ⟨s₁, halloc, hsame₁⟩ := exists_ialloc hlt T_DIR
  obtain ⟨h₁, -, hfree₁⟩ := (Inv.start pad).ialloc hlt (if_pos rfl).symm halloc
  rw [hone] at hfree₁
  obtain ⟨s₂, hdot, hle₂⟩ := h₁.exists_iappend (i := ROOTINO) hpos (by rw [hfree₁]; omega)
    ⟨ROOTINO, [46]⟩ rfl (by rw [List.length_nil]; omega) (by omega)
  obtain ⟨h₂, hfree₂⟩ := h₁.iappend hpos (by rw [hfree₁]; omega) hdot
  rw [List.nil_append] at h₂
  obtain ⟨s₃, hdotdot, hle₃⟩ := h₂.exists_iappend (i := ROOTINO) hpos
    (by rw [hfree₂, hfree₁]; omega) ⟨ROOTINO, [46, 46]⟩
    (by rw [update_self, length_direntBytes]; rfl)
    (by rw [update_self, length_direntBytes]; omega) (by omega)
  obtain ⟨h₃, hfree₃⟩ := h₂.iappend hpos (by rw [hfree₂, hfree₁]; omega) hdotdot
  rw [update_self, update_idem] at h₃
  have htwo : s₃.freeinode = 2 := by rw [hfree₃, hfree₂, hfree₁, ROOTINO]
  -- the files
  obtain ⟨s₄, hfiles, hle₄⟩ := h₃.exists_addAll (by rw [htwo]; decide) hempty
    (by rw [htwo]; omega)
    (by rw [update_self, List.length_append, length_direntBytes, length_direntBytes, htwo,
      Nat.mul_comm, Nat.two_mul]) (by omega)
  obtain ⟨h₄, hfree₄⟩ := h₃.addAll (by rw [htwo]; decide) (by rw [htwo]; omega) hfiles
  have hused : s₄.usedblocks < 512 := by
    rw [h₄.laid.used]
    omega
  obtain ⟨s, hfinish⟩ : ∃ s, s₄.finish ROOTINO = some s := by
    have hroot : ROOTINO < Mkfs.inodes := by decide
    simp only [Image.finish, Image.balloc, rinode_of_lt hroot, winode_of_lt hroot, Image.wsect, guard,
      if_pos hused, Option.pure_def, Option.bind_eq_bind, Option.bind_some]
    exact ⟨_, rfl⟩
  refine ⟨s, ?_⟩
  have hcount : nblocks + firstData = Mkfs.size := by decide
  simp only [mkfs, guard, if_pos hcount, halloc, hone, if_true, hdot, hdotdot, hfiles, hfinish,
    Option.pure_def, Option.bind_eq_bind, Option.bind_some]

/-- **Exactly when `mkfs` writes a well-formed image**: its inodes fit in front of the bitmap, and
the entries of the root directory do not fill a whole number of blocks. -/
theorem wellFormed_iff_of_mkfs (pad : Block) (files : List InFile) (s : Image)
    (h : mkfs pad files = some s) :
    WellFormed s ↔ files.length ≤ 206 ∧ (files.length + 2) % 32 ≠ 0 := by
  have hfree := freeinode_of_mkfs h
  have hinodes : inodes = 208 := by decide
  constructor
  · intro hwf
    have hle : files.length ≤ 206 := by
      by_contra hgt
      have hblock := hwf.inodes 208 (by omega) (by omega)
      exact absurd hblock (by decide)
    exact ⟨hle, fun hfull => (written_of_mkfs h (by omega)).hole hfull hwf⟩
  · rintro ⟨hle, hfull⟩
    exact (written_of_mkfs h (by omega)).wellFormed (by omega) hfull

/-- Thirty files without contents, with the entries "." and ".." one block of entries. -/
def oneBlock : List InFile :=
  (List.finRange 30).map fun k : Fin 30 => ⟨[UInt8.ofNat (k.val + 65)], [], by decide +revert⟩

/-- With thirty files the root directory has a hole. -/
theorem not_wellFormed_oneBlock :
    ∃ s, mkfs Bytes.zero oneBlock = some s ∧ ¬ WellFormed s := by
  have hlen : oneBlock.length = 30 := by simp [oneBlock]
  obtain ⟨s, hs⟩ := exists_mkfs Bytes.zero oneBlock (by
    intro f hf
    obtain ⟨k, -, rfl⟩ := List.mem_map.mp hf
    have hslash : ∀ k : Fin 30, (47 : UInt8) ∉ [UInt8.ofNat (k.val + 65)] := by decide
    exact ⟨hslash k, List.cons_ne_nil _ _, rfl⟩) (by omega)
  refine ⟨s, hs, (written_of_mkfs hs ?_).hole (by omega)⟩
  rw [hlen]
  decide

/-- Without any files the image is well formed. -/
theorem wellFormed_iff_of_mkfs_nil : ∃ s, mkfs Bytes.zero [] = some s ∧ WellFormed s := by
  obtain ⟨s, hs⟩ := exists_mkfs Bytes.zero [] (fun f hf => (nomatch hf)) (by decide)
  exact ⟨s, hs, (wellFormed_iff_of_mkfs Bytes.zero [] s hs).mpr (by decide)⟩

end Xv6.Mkfs

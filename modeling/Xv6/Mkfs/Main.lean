import Xv6.Mkfs.Append
import Xv6.Fs.Bitmap

/-! # The images that `mkfs` writes

The state of `mkfs` between two calls of `ialloc` and `iappend`: every inode in use has the size of
its contents and the blocks for it, as long as the inodes stay in front of the bitmap. -/

namespace Xv6.Mkfs

open Lib Fs

open Function (update update_eq_self update_idem update_of_ne update_self)

/-- The number of inodes that have room in front of the bitmap. -/
def inodes : Nat := (bitmap - 2) * IPB

theorem iblock_lt {i : Nat} (hi : i < inodes) : IBLOCK i < bitmap := by
  simp only [inodes, bitmap, ninodes, IPB] at hi
  simp only [IBLOCK, bitmap, ninodes, IPB]
  omega

theorem bitmap_lt : bitmap < firstData := by decide

/-- The inodes in use. -/
def Image.inode (s : Image) (i : Nat) : Dinode :=
  if 0 < i ∧ i < s.freeinode then dinodeAt (s.img (IBLOCK i)) i else Dinode.blank 0

variable {s s' : Image} {D D' : Nat → Dinode} {n : Nat → Nat} {c : Nat → List UInt8} {i : Nat}

/-- Writes in front of the data blocks that keep the addresses. -/
theorem Laid.congr (h : Laid s D n c) (hdisk : ∀ b, firstData ≤ b → s'.img b = s.img b)
    (hfree : s'.freeblock = s.freeblock) (hused : s'.usedblocks = s.usedblocks)
    (haddrs : ∀ i, (D' i).addrs = (D i).addrs) : Laid s' D' n c := by
  have hrange (i : Nat) (pl : Place) (hpl : (D i).stored s.img pl ≠ 0) :
      firstData ≤ (D i).stored s.img pl := (h.owned.range (i, pl) hpl).1
  have hdirect (i k : Nat) : (D' i).direct k = (D i).direct k := by
    unfold Dinode.direct
    rw [haddrs]
  have hindirect (i : Nat) : (D' i).indirect = (D i).indirect := by
    unfold Dinode.indirect
    rw [haddrs]
  have hstored : stored s'.img D' = stored s.img D := by
    funext x
    obtain ⟨i, pl⟩ := x
    cases pl with
    | indirect => exact hindirect i
    | block k =>
        show blockNo s'.img (D' i) k = blockNo s.img (D i) k
        rw [← blockNo_congr (d := D i) (fun hne => hdisk _ (hrange i .indirect hne)) k]
        unfold blockNo
        rw [hdirect, hindirect]
  refine ⟨fun i => ?_, ?_, fun b hb => ?_, by rw [hfree]; exact h.last, ?_⟩
  · exact ((h.holds i).congr fun pl hpl => hdisk _ (hrange i pl hpl)).congr_addrs (haddrs i)
  · rw [hstored, hfree]
    exact h.owned
  · rw [hfree] at hb
    rw [hdisk b (Nat.le_trans h.owned.first hb)]
    exact h.zero b hb
  · rw [hused, hfree]
    exact h.used

/-! ## Inodes on the image -/

theorem of_winode {d : Dinode} (h : s.winode i d = some s') :
    s' = s.wsect (IBLOCK i) (putDinode (s.img (IBLOCK i)) i d) := by
  simp only [Image.winode, Option.bind_eq_bind, Option.bind_eq_some_iff] at h
  obtain ⟨buf, hread, hret⟩ := h
  rw [← (of_rsect hread).2]
  exact (Option.some.inj hret).symm

theorem of_rinode {d : Dinode} (h : s.rinode i = some d) : d = dinodeAt (s.img (IBLOCK i)) i := by
  simp only [Image.rinode, Option.bind_eq_bind, Option.bind_eq_some_iff] at h
  obtain ⟨buf, hread, hret⟩ := h
  rw [← (of_rsect hread).2]
  exact (Option.some.inj hret).symm

/-- **`winode`** changes one inode. -/
theorem dinodeAt_wsect (s : Image) (i : Nat) (d : Dinode) (j : Nat) :
    dinodeAt ((s.wsect (IBLOCK i) (putDinode (s.img (IBLOCK i)) i d)).img (IBLOCK j)) j =
      if j = i then d else dinodeAt (s.img (IBLOCK j)) j := by
  by_cases hj : j = i
  · subst hj
    rw [if_pos rfl, Image.wsect]
    simp only [update_self]
    exact dinodeAt_putDinode_self _ _ _
  · rw [if_neg hj, Image.wsect]
    by_cases hblock : IBLOCK j = IBLOCK i
    · simp only [hblock, update_self]
      apply dinodeAt_putDinode_of_ne
      simp only [IBLOCK, IPB] at hblock ⊢
      omega
    · simp only [update_of_ne hblock]

/-- Rewriting an inode in use. -/
theorem inode_wsect (hi : 0 < i ∧ i < s.freeinode) (d : Dinode) :
    (s.wsect (IBLOCK i) (putDinode (s.img (IBLOCK i)) i d)).inode =
      update s.inode i d := by
  funext j
  have hat := dinodeAt_wsect s i d j
  by_cases hj : j = i
  · subst hj
    rw [update_self]
    exact (if_pos hi).trans (hat.trans (if_pos rfl))
  · rw [update_of_ne hj, Image.inode, Image.inode, hat, if_neg hj]
    rfl

/-- The superblock is no inode block. -/
theorem img_one_wsect (s : Image) (i : Nat) (b : Block) : (s.wsect (IBLOCK i) b).img 1 = s.img 1 := by
  have hne : 1 ≠ IBLOCK i := by
    simp only [IBLOCK, IPB]
    omega
  exact update_of_ne hne b s.img

/-- The inodes lie in front of the bitmap. -/
theorem inode_congr (hfree : s'.freeinode = s.freeinode) (hle : s.freeinode ≤ inodes)
    (hsect : ∀ b < bitmap, s'.img b = s.img b) : s'.inode = s.inode := by
  funext j
  unfold Image.inode
  rw [hfree]
  by_cases hj : 0 < j ∧ j < s.freeinode
  · rw [if_pos hj, if_pos hj, hsect _ (iblock_lt (by omega))]
  · rw [if_neg hj, if_neg hj]

/-! ## Between the operations -/

/-- **The state of `mkfs`** between its operations, with the contents of the inodes. -/
structure Inv (s : Image) (c : Nat → List UInt8) : Prop where
  laid : Laid s s.inode (fun j => blocks (c j).length) c
  pos : 0 < s.freeinode
  le : s.freeinode ≤ inodes
  size : ∀ i, (s.inode i).size.toNat = (c i).length
  type : ∀ i, 0 < i → i < s.freeinode → (s.inode i).type = if i = ROOTINO then T_DIR else T_FILE
  nlink : ∀ i, 0 < i → i < s.freeinode → (s.inode i).nlink = 1
  sb : superblockOf (s.img 1) = ⟨Mkfs.size, nblocks, ninodes⟩

/-- A file is never longer than the largest one. -/
theorem Laid.length_lt (h : Laid s D (fun j => blocks (c j).length) c) (i : Nat) :
    (c i).length < 4294967296 := by
  have hmax : blocks (c i).length ≤ MAXFILE := (h.holds i).le_max
  simp only [blocks, BSIZE, MAXFILE, NDIRECT, NINDIRECT] at hmax
  omega

/-- **`iappend`.** -/
theorem Inv.iappend (h : Inv s c) (hi : 0 < i) (hi' : i < s.freeinode) {p : List UInt8}
    (hrun : s.iappend i p = some s') :
    Inv s' (update c i (c i ++ p)) ∧ s'.freeinode = s.freeinode := by
  simp only [Image.iappend, Option.bind_eq_bind, Option.bind_eq_some_iff] at hrun
  obtain ⟨din, hread, ⟨s₁, d, off⟩, hloop, hwrite⟩ := hrun
  have hdin : din = s.inode i := by
    rw [of_rinode hread, Image.inode, if_pos ⟨hi, hi'⟩]
  rw [hdin, h.size] at hloop
  obtain ⟨h₁, hoff, hkept⟩ := h.laid.iappendLoop rfl le_rfl hloop
  have hsame : s₁.inode = s.inode := inode_congr hkept.freeinode h.le fun b hb =>
    hkept.sector b (Nat.lt_trans hb bitmap_lt)
  have hs' := of_winode hwrite
  subst hs'
  have hinode := inode_wsect (s := s₁) (by rw [hkept.freeinode]; exact ⟨hi, hi'⟩)
    { d with size := UInt32.ofNat off }
  rw [hsame] at hinode
  refine ⟨⟨?_, ?_, ?_, fun j => ?_, fun j hj hj' => ?_, fun j hj hj' => ?_, ?_⟩, hkept.freeinode⟩
  · refine h₁.congr (fun b hb => ?_) rfl rfl fun j => ?_
    · have hlt : IBLOCK i < bitmap := iblock_lt (Nat.lt_of_lt_of_le hi' h.le)
      have hne : b ≠ IBLOCK i := by
        have := bitmap_lt
        omega
      exact update_of_ne hne _ _
    · rw [hinode]
      by_cases hj : j = i
      · rw [hj, update_self, update_self]
      · rw [update_of_ne hj, update_of_ne hj]
  · show 0 < s₁.freeinode
    rw [hkept.freeinode]
    exact h.pos
  · show s₁.freeinode ≤ inodes
    rw [hkept.freeinode]
    exact h.le
  · rw [hinode]
    by_cases hj : j = i
    · have hlen := h₁.length_lt i
      rw [update_self, List.length_append] at hlen
      rw [hj, update_self, update_self, List.length_append]
      show (UInt32.ofNat off).toNat = _
      rw [UInt32.toNat_ofNat', hoff]
      exact Nat.mod_eq_of_lt hlen
    · rw [update_of_ne hj, update_of_ne hj]
      exact h.size j
  · have hj'' : j < s.freeinode := hkept.freeinode ▸ hj'
    rw [hinode]
    by_cases heq : j = i
    · rw [← h.type j hj hj'', heq, update_self]
      exact hkept.type
    · rw [update_of_ne heq]
      exact h.type j hj hj''
  · have hj'' : j < s.freeinode := hkept.freeinode ▸ hj'
    rw [hinode]
    by_cases heq : j = i
    · rw [← h.nlink j hj hj'', heq, update_self]
      exact hkept.nlink
    · rw [update_of_ne heq]
      exact h.nlink j hj hj''
  · rw [img_one_wsect, hkept.sector 1 (by decide)]
    exact h.sb

/-- **`ialloc`.** -/
theorem Inv.ialloc (h : Inv s c) (hle : s.freeinode < inodes) {type : Int16}
    (htype : type = if s.freeinode = ROOTINO then T_DIR else T_FILE) {inum : Nat}
    (hrun : s.ialloc type = some (s', inum)) :
    Inv s' c ∧ inum = s.freeinode ∧ s'.freeinode = s.freeinode + 1 := by
  simp only [Image.ialloc, Option.bind_eq_bind, Option.bind_eq_some_iff] at hrun
  obtain ⟨s₁, hwrite, hret⟩ := hrun
  obtain ⟨rfl, rfl⟩ : s₁ = s' ∧ s.freeinode = inum := by
    simpa only [Option.pure_def, Option.some.injEq, Prod.mk.injEq] using hret
  have hs₁ := of_winode hwrite
  subst hs₁
  have hpos := h.pos
  have hinode := inode_wsect (s := { s with freeinode := s.freeinode + 1 }) (i := s.freeinode)
    ⟨hpos, Nat.lt_succ_self _⟩ { Dinode.blank type with nlink := 1 }
  -- the inode allocated was not in use, the others are the same
  have hother (j : Nat) (hj : j ≠ s.freeinode) :
      ({ s with freeinode := s.freeinode + 1 } : Image).inode j = s.inode j := by
    unfold Image.inode
    by_cases hin : 0 < j ∧ j < s.freeinode
    · rw [if_pos hin]
      exact if_pos ⟨hin.1, by show j < s.freeinode + 1; omega⟩
    · rw [if_neg hin]
      exact if_neg (by show ¬ (0 < j ∧ j < s.freeinode + 1); omega)
  have hunused : s.inode s.freeinode = Dinode.blank 0 := if_neg (by omega)
  refine ⟨⟨?_, Nat.succ_pos _, hle, fun j => ?_, fun j hj hj' => ?_, fun j hj hj' => ?_, ?_⟩, rfl,
    rfl⟩
  · refine h.laid.congr (fun b hb => ?_) rfl rfl fun j => ?_
    · have hlt : IBLOCK s.freeinode < bitmap := iblock_lt hle
      have hne : b ≠ IBLOCK s.freeinode := by
        have := bitmap_lt
        omega
      exact update_of_ne hne _ _
    · rw [hinode]
      by_cases hj : j = s.freeinode
      · rw [hj, update_self, hunused]
        rfl
      · rw [update_of_ne hj, hother j hj]
  · rw [hinode]
    by_cases hj : j = s.freeinode
    · rw [hj, update_self, ← h.size, hunused]
      rfl
    · rw [update_of_ne hj, hother j hj]
      exact h.size j
  · rw [hinode]
    by_cases heq : j = s.freeinode
    · rw [heq, update_self]
      exact htype
    · rw [update_of_ne heq, hother j heq]
      have hlt : j < s.freeinode + 1 := hj'
      exact h.type j hj (by omega)
  · rw [hinode]
    by_cases heq : j = s.freeinode
    · rw [heq, update_self]
    · rw [update_of_ne heq, hother j heq]
      have hlt : j < s.freeinode + 1 := hj'
      exact h.nlink j hj (by omega)
  · rw [img_one_wsect]
    exact h.sb

/-- The reads of an input file are appended one after the other. -/
theorem Inv.copy (h : Inv s c) (hi : 0 < i) (hi' : i < s.freeinode) {reads : List Piece}
    (hrun : s.copy i reads = some s') :
    Inv s' (update c i (c i ++ reads.flatMap Piece.bytes)) ∧
      s'.freeinode = s.freeinode := by
  induction reads generalizing s c with
  | nil =>
      obtain rfl : s = s' := Option.some.inj hrun
      rw [List.flatMap_nil, List.append_nil, update_eq_self]
      exact ⟨h, rfl⟩
  | cons r reads ih =>
      rw [Image.copy, List.foldlM_cons] at hrun
      obtain ⟨s₁, hone, hrest⟩ := Option.bind_eq_some_iff.mp hrun
      obtain ⟨h₁, hfree⟩ := h.iappend hi hi' hone
      obtain ⟨h₂, hfree'⟩ := ih h₁ (hfree ▸ hi') hrest
      rw [update_self, update_idem, List.append_assoc] at h₂
      rw [List.flatMap_cons]
      exact ⟨h₂, hfree'.trans hfree⟩

/-- The contents after one more file. -/
def addContents (c : Nat → List UInt8) (inum : Nat) (f : InFile) : Nat → List UInt8 :=
  update (update c ROOTINO (c ROOTINO ++ direntBytes ⟨inum, f.name⟩)) inum
    f.contents

/-- **One input file.** -/
theorem Inv.add (h : Inv s c) (hroot : ROOTINO < s.freeinode) (hle : s.freeinode < inodes)
    {f : InFile} (hrun : s.add ROOTINO f = some s') :
    Inv s' (addContents c s.freeinode f) ∧ s'.freeinode = s.freeinode + 1 := by
  simp only [Image.add, Option.bind_eq_bind, Option.bind_eq_some_iff] at hrun
  obtain ⟨_, -, _, -, ⟨s₁, inum⟩, halloc, s₂, hentry, hcopy⟩ := hrun
  have hne : s.freeinode ≠ ROOTINO := Nat.ne_of_gt hroot
  obtain ⟨h₁, rfl, hfree₁⟩ := h.ialloc hle (if_neg hne).symm halloc
  obtain ⟨h₂, hfree₂⟩ := h₁.iappend (by decide) (by omega) hentry
  obtain ⟨h₃, hfree₃⟩ := h₂.copy h.pos (by omega) hcopy
  have hempty : c s.freeinode = [] := by
    have hsize := h.size s.freeinode
    have hunused : s.inode s.freeinode = Dinode.blank 0 := if_neg (by omega)
    rw [hunused] at hsize
    exact List.length_eq_zero_iff.mp hsize.symm
  rw [update_of_ne hne, hempty, List.nil_append] at h₃
  exact ⟨h₃, by omega⟩

/-- The contents after all the files, from inode `inum` on. -/
def addAll : (Nat → List UInt8) → Nat → List InFile → Nat → List UInt8
  | c, _, [] => c
  | c, inum, f :: files => addAll (addContents c inum f) (inum + 1) files

variable {files : List InFile}

/-- **All input files.** -/
theorem Inv.addAll (h : Inv s c) (hroot : ROOTINO < s.freeinode)
    (hle : s.freeinode + files.length ≤ inodes)
    (hrun : files.foldlM (Image.add ROOTINO) s = some s') :
    Inv s' (addAll c s.freeinode files) ∧ s'.freeinode = s.freeinode + files.length := by
  induction files generalizing s c with
  | nil =>
      obtain rfl : s = s' := Option.some.inj hrun
      exact ⟨h, rfl⟩
  | cons f files ih =>
      rw [List.foldlM_cons] at hrun
      obtain ⟨s₁, hone, hrest⟩ := Option.bind_eq_some_iff.mp hrun
      rw [List.length_cons] at hle ⊢
      obtain ⟨h₁, hfree⟩ := h.add hroot (by omega) hone
      obtain ⟨h₂, hfree'⟩ := ih h₁ (by omega) (by omega) hrest
      rw [hfree] at h₂
      exact ⟨h₂, by omega⟩

/-! ## The beginning and the end -/

theorem Inv.start (pad : Block) : Inv (Image.start pad) fun _ => [] := by
  have hunused (i : Nat) : (Image.start pad).inode i = Dinode.blank 0 :=
    if_neg (by show ¬ (0 < i ∧ i < 1); omega)
  have hnone (x : Nat × Place) : stored (Image.start pad).img (Image.start pad).inode x = 0 := by
    obtain ⟨i, pl⟩ := x
    rw [stored, hunused]
    cases pl with
    | indirect => rfl
    | block k =>
        by_contra hne
        exact absurd (((Holds.blank 0 fun _ => 0).block k).mp hne) (by omega)
  have hlaid : Laid (Image.start pad) (Image.start pad).inode (fun _ => blocks ([] : List UInt8).length)
      fun _ => [] := by
    refine ⟨fun i => ?_, ⟨fun x y hx => absurd (hnone x) hx, fun x hx => absurd (hnone x) hx,
      le_rfl⟩, fun b hb => ?_, show firstData ≤ Mkfs.size by decide, rfl⟩
    · rw [hunused]
      exact Holds.blank 0 _
    · have hb' : firstData ≤ b := hb
      have hfirst : 1 < firstData := by decide
      have hne : b ≠ 1 := by omega
      exact update_of_ne hne _ fun _ => Bytes.zero
  refine ⟨hlaid, Nat.one_pos, show 1 ≤ inodes by decide, fun i => ?_, fun i hi hi' => ?_, fun i hi hi' => ?_, ?_⟩
  · rw [hunused]
    rfl
  · exact absurd hi' (by show ¬ i < 1; omega)
  · exact absurd hi' (by show ¬ i < 1; omega)
  · have hbyte : (pad.blit 0 (bytes32 Mkfs.size ++ (bytes32 nblocks ++ bytes32 ninodes))).byte =
        put pad.byte 0 (bytes32 Mkfs.size ++ (bytes32 nblocks ++ bytes32 ninodes)) :=
      funext (Bytes.byte_blit pad (by decide))
    have hfield (k : Nat) (hk : k + 4 ≤ 12) := le32_put pad.byte 0
      (bytes32 Mkfs.size ++ (bytes32 nblocks ++ bytes32 ninodes)) (k := k) hk
    have h0 := hfield 0 (by omega)
    have h4 := hfield 4 (by omega)
    have h8 := hfield 8 (by omega)
    rw [Nat.zero_add] at h0 h4 h8
    show superblockOf (pad.blit 0 _) = _
    rw [superblockOf, hbyte, h0, h4, h8]
    decide

/-- The contents of the root directory before the first file. -/
def dots : Nat → List UInt8 :=
  update (fun _ => []) ROOTINO
    (direntBytes ⟨ROOTINO, [46]⟩ ++ direntBytes ⟨ROOTINO, [46, 46]⟩)

/-- The contents of all inodes at the end. -/
def contents (files : List InFile) : Nat → List UInt8 := addAll dots 2 files

/-- `main` up to its last part. -/
theorem inv_of_mkfs {pad : Block} (h : mkfs pad files = some s) (hle : files.length + 2 ≤ inodes) :
    ∃ s₀, Inv s₀ (contents files) ∧ s₀.freeinode = files.length + 2 ∧
      s₀.finish ROOTINO = some s := by
  simp only [mkfs, Option.bind_eq_bind, Option.bind_eq_some_iff] at h
  obtain ⟨_, -, ⟨s₁, rootino⟩, halloc, _, hroot, s₂, hdot, s₃, hdotdot, s₀, hfiles, hfinish⟩ := h
  obtain rfl : rootino = ROOTINO := of_guard hroot
  have hone : (Image.start pad).freeinode = 1 := rfl
  obtain ⟨h₁, -, hfree₁⟩ := (Inv.start pad).ialloc (show 1 < inodes by decide) (if_pos rfl).symm halloc
  obtain ⟨h₂, hfree₂⟩ := h₁.iappend Nat.one_pos (by rw [hfree₁]; exact Nat.lt_succ_self 1) hdot
  obtain ⟨h₃, hfree₃⟩ := h₂.iappend Nat.one_pos (by rw [hfree₂, hfree₁]; exact Nat.lt_succ_self 1)
    hdotdot
  rw [update_self, update_idem, List.nil_append] at h₃
  have htwo : s₃.freeinode = 2 := by rw [hfree₃, hfree₂, hfree₁, hone]
  obtain ⟨h₀, hfree₀⟩ := h₃.addAll (by rw [htwo]; decide) (by rw [htwo]; omega) hfiles
  rw [htwo] at h₀ hfree₀
  exact ⟨s₀, h₀, by omega, hfinish⟩

/-- The bitmap has the bits of the first blocks. -/
theorem bitAt_bitmapOf {used : Nat} (hused : used ≤ BPB) (b : Nat) :
    bitAt (Image.bitmapOf used) b = decide (b < used) := by
  induction used with
  | zero => simp [Image.bitmapOf, bitAt]
  | succ used ih =>
      rw [Image.bitmapOf, bitAt_setBit _ (by omega), ih (by omega), ← Bool.decide_or]
      exact decide_eq_decide.mpr (by omega)

/-- **What `mkfs` leaves**: the files are laid out, and the root directory has a size rounded up to
the next block, also from a whole number of blocks. -/
structure Written (s : Image) (files : List InFile) : Prop where
  laid : Laid s s.inode (fun j => blocks (contents files j).length) (contents files)
  freeinode : s.freeinode = files.length + 2
  size : ∀ i, i ≠ ROOTINO → (s.inode i).size.toNat = (contents files i).length
  root : (s.inode ROOTINO).size.toNat = ((contents files ROOTINO).length / BSIZE + 1) * BSIZE
  type : ∀ i, 0 < i → i < s.freeinode → (s.inode i).type = if i = ROOTINO then T_DIR else T_FILE
  nlink : ∀ i, 0 < i → i < s.freeinode → (s.inode i).nlink = 1
  sb : superblockOf (s.img 1) = ⟨Mkfs.size, nblocks, ninodes⟩
  bit : ∀ b, bitAt (s.img bitmap) b = decide (b < s.freeblock)
  lt : s.freeblock < 512

/-- **`mkfs`**, as long as the inodes stay in front of the bitmap. -/
theorem written_of_mkfs {pad : Block} (h : mkfs pad files = some s)
    (hle : files.length + 2 ≤ inodes) : Written s files := by
  obtain ⟨s₀, h₀, hfree, hfinish⟩ := inv_of_mkfs h hle
  have hroot : 0 < ROOTINO ∧ ROOTINO < s₀.freeinode := ⟨Nat.one_pos, by rw [hfree, ROOTINO]; omega⟩
  simp only [Image.finish, Option.bind_eq_bind, Option.bind_eq_some_iff] at hfinish
  obtain ⟨din, hread, s₁, hwrite, hballoc⟩ := hfinish
  have hdin : din = s₀.inode ROOTINO := (of_rinode hread).trans (if_pos hroot).symm
  -- the root inode is written back with its new size
  obtain ⟨hinode₁, hdisk₁, hone₁, hfree₁, hused₁, hinum₁⟩ : s₁.inode = update s₀.inode
      ROOTINO { din with size := UInt32.ofNat ((din.size.toNat / BSIZE + 1) * BSIZE) } ∧
      (∀ b, firstData ≤ b → s₁.img b = s₀.img b) ∧ s₁.img 1 = s₀.img 1 ∧
      s₁.freeblock = s₀.freeblock ∧ s₁.usedblocks = s₀.usedblocks ∧
      s₁.freeinode = s₀.freeinode := by
    have hlt : IBLOCK ROOTINO < firstData := by decide
    rw [of_winode hwrite]
    exact ⟨inode_wsect hroot _, fun b hb => update_of_ne (by omega) _ _,
      img_one_wsect s₀ ROOTINO _, rfl, rfl, rfl⟩
  simp only [Image.balloc, Option.bind_eq_bind, Option.bind_eq_some_iff] at hballoc
  obtain ⟨u, hguard, hret⟩ := hballoc
  have hused : s₁.usedblocks < 512 := of_guard hguard
  -- then the bitmap
  obtain ⟨hinode, hdisk, hone, hblock, hfree', hused', hinum⟩ : s.inode = s₁.inode ∧
      (∀ b, firstData ≤ b → s.img b = s₁.img b) ∧ s.img 1 = s₁.img 1 ∧
      s.img bitmap = Image.bitmapOf s₁.usedblocks ∧ s.freeblock = s₁.freeblock ∧
      s.usedblocks = s₁.usedblocks ∧ s.freeinode = s₁.freeinode := by
    have hlt := bitmap_lt
    have hle' : s₁.freeinode ≤ inodes := by rw [hinum₁]; exact h₀.le
    have hinode : (s₁.wsect bitmap (Image.bitmapOf s₁.usedblocks)).inode = s₁.inode :=
      inode_congr rfl hle' fun b hb => update_of_ne (Nat.ne_of_lt hb) _ s₁.img
    have hbitmap : (s₁.wsect bitmap (Image.bitmapOf s₁.usedblocks)).img =
        update s₁.img bitmap (Image.bitmapOf s₁.usedblocks) := rfl
    rw [← Option.some.inj hret, hbitmap, update_self,
      update_of_ne (show 1 ≠ bitmap by decide)]
    exact ⟨hinode, fun b hb => update_of_ne (by omega) _ s₁.img, rfl, rfl, rfl, rfl, rfl⟩
  rw [hdin] at hinode₁
  rw [hinode₁] at hinode
  have hother (j : Nat) (hj : j ≠ ROOTINO) : s.inode j = s₀.inode j :=
    (congrFun hinode j).trans (update_of_ne hj ..)
  have hself := (congrFun hinode ROOTINO).trans (update_self ..)
  have hmax : blocks (contents files ROOTINO).length ≤ MAXFILE := (h₀.laid.holds ROOTINO).le_max
  have hinum₀ : s.freeinode = s₀.freeinode := hinum.trans hinum₁
  refine ⟨h₀.laid.congr (fun b hb => (hdisk b hb).trans (hdisk₁ b hb)) (hfree'.trans hfree₁)
    (hused'.trans hused₁) fun j => ?_, hinum₀.trans hfree, fun j hj => ?_, ?_,
    fun j hj hj' => ?_, fun j hj hj' => ?_, ?_, fun b => ?_, ?_⟩
  · by_cases hj : j = ROOTINO
    · rw [hj, hself]
    · rw [hother j hj]
  · rw [hother j hj]
    exact h₀.size j
  · rw [hself]
    show (UInt32.ofNat _).toNat = _
    rw [h₀.size, UInt32.toNat_ofNat']
    apply Nat.mod_eq_of_lt
    simp only [blocks, BSIZE, MAXFILE, NDIRECT, NINDIRECT] at hmax ⊢
    omega
  · by_cases heq : j = ROOTINO
    · rw [heq, hself]
      exact h₀.type ROOTINO hroot.1 hroot.2
    · rw [hother j heq]
      exact h₀.type j hj (hinum₀ ▸ hj')
  · by_cases heq : j = ROOTINO
    · rw [heq, hself]
      exact h₀.nlink ROOTINO hroot.1 hroot.2
    · rw [hother j heq]
      exact h₀.nlink j hj (hinum₀ ▸ hj')
  · rw [hone, hone₁]
    exact h₀.sb
  · rw [hblock, bitAt_bitmapOf (by simp only [BPB, BSIZE]; omega), hused₁, h₀.laid.used, hfree',
      hfree₁]
  · rw [hfree', hfree₁, ← h₀.laid.used, ← hused₁]
    exact hused

end Xv6.Mkfs

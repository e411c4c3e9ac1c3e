import Xv6.Fs.Balloc

/-! # Who owns the blocks of the disk

Every block belongs to the file system itself, to nobody, or to one place of one inode. Ownership is
kept beside the state: the bitmap, the zero contents of free blocks, and the numbers that the inodes
store, on the disk and in the cache, all agree with it. Each operation on blocks and inodes changes
the owner of at most one block. -/

namespace Xv6.Fs

open Lib

open Function (update update_of_ne update_self)

/-- Whom a block belongs to. -/
inductive Owner
  /-- Nobody: `balloc` may take it. -/
  | free
  /-- The file system: the boot block, the superblock, the inodes, the bitmap. -/
  | system
  /-- A place of an inode. -/
  | file (i : Nat) (pl : Place)

/-- The inode `i` on the disk. -/
def dinodeOf (disk : Disk) (i : Nat) : Dinode := dinodeAt (disk (IBLOCK i)) i

/-- **The inode stores only blocks of its own**, each in the place it belongs to, and the blocks of
a directory meet a condition on their contents. -/
structure Lists (V : Block → Prop) (own : Nat → Owner) (disk : Disk) (i : Nat) (d : Dinode) :
    Prop where
  stored : ∀ pl, d.stored disk pl ≠ 0 → own (d.stored disk pl) = .file i pl
  entries : d.type = T_DIR → ∀ k, blockNo disk d k ≠ 0 → V (disk (blockNo disk d k))

/-- **The copies of an inode that count**: the one on the disk if it is allocated, unless the inode
is excused, and a valid one in the cache. -/
inductive Copy (sb : Superblock) (ex : Option Nat) (disk : Disk) (ic : Slot → Inode) :
    Nat → Dinode → Prop
  | disk {i : Nat} (hi : i < sb.ninodes) (hex : ex ≠ some i)
      (htype : (dinodeOf disk i).type ≠ 0) : Copy sb ex disk ic i (dinodeOf disk i)
  | slot {ip : Slot} (href : 0 < (ic ip).ref) (hvalid : (ic ip).valid = true) :
      Copy sb ex disk ic (ic ip).inum (ic ip).d

/-- **Block ownership** on a disk with an inode cache. The inode `ex`, if there is one, is being
freed: its copy on the disk does not count. -/
structure Owned (V : Block → Prop) (own : Nat → Owner) (sb : Superblock) (ex : Option Nat)
    (disk : Disk) (ic : Slot → Inode) : Prop where
  super : superblockOf (disk 1) = sb
  system : ∀ n < sb.ninodes / IPB + 3, own n = .system
  bitmap : ∀ b, Scanned sb b → own (BBLOCK b sb.ninodes) = .system
  /-- Files are made of blocks that have a bit. -/
  scanned : ∀ n, own n ≠ .system → Scanned sb n
  bits : ∀ n, Scanned sb n → (bit disk sb n = false ↔ own n = .free)
  zero : ∀ n, own n = .free → disk n = Bytes.zero
  root : ROOTINO < sb.ninodes
  /-- The cache has inodes of the file system, each in one slot. -/
  range : ∀ ip, 0 < (ic ip).ref → (ic ip).inum < sb.ninodes
  once : ∀ ip ip', 0 < (ic ip).ref → 0 < (ic ip').ref →
    (ic ip).inum = (ic ip').inum → ip = ip'
  lists : ∀ i d, Copy sb ex disk ic i d → Lists V own disk i d

/-! ## Inodes -/

namespace Lists

variable {V : Block → Prop} {own : Nat → Owner} {disk : Disk} {i : Nat} {d d' : Dinode}

/-- An inode that stores less. -/
theorem drop (h : Lists V own disk i d)
    (hsub : ∀ pl, d'.stored disk pl = 0 ∨ d'.stored disk pl = d.stored disk pl)
    (htype : d'.type = T_DIR → d.type = T_DIR) : Lists V own disk i d' where
  stored pl hne := by
    rcases hsub pl with h0 | heq
    · exact absurd h0 hne
    · rw [heq] at hne ⊢
      exact h.stored pl hne
  entries hdir k hne := by
    have hk : blockNo disk d' k = 0 ∨ blockNo disk d' k = blockNo disk d k := hsub (.block k)
    rcases hk with h0 | heq
    · exact absurd h0 hne
    · rw [heq] at hne ⊢
      exact h.entries (htype hdir) k hne

/-- One more block. -/
theorem insert {disk' : Disk} (h : Lists V own disk i d) {n : Nat} {pl : Place}
    (hn : own n = .file i pl) (hV : V (disk' n))
    (hstored : d'.stored disk' = update (d.stored disk) pl n)
    (hdisk : ∀ k, blockNo disk d k ≠ 0 → disk' (blockNo disk d k) = disk (blockNo disk d k))
    (htype : d'.type = d.type) : Lists V own disk' i d' where
  stored pl' hne := by
    rw [hstored] at hne ⊢
    by_cases hpl : pl' = pl
    · subst hpl
      rwa [update_self]
    · rw [update_of_ne hpl] at hne ⊢
      exact h.stored pl' hne
  entries hdir k hne := by
    have hk : blockNo disk' d' k = update (d.stored disk) pl n (.block k) :=
      congrFun hstored (.block k)
    rw [hk] at hne ⊢
    by_cases hpl : Place.block k = pl
    · rw [hpl, update_self]
      exact hV
    · rw [update_of_ne hpl] at hne ⊢
      show V (disk' (blockNo disk d k))
      rw [hdisk k hne]
      exact h.entries (htype ▸ hdir) k hne

/-- A write to a block that is not the indirect block of the inode. -/
theorem write (h : Lists V own disk i d) {x : Nat} {b : Block}
    (hind : d.indirect ≠ 0 → d.indirect ≠ x) (hb : ∀ k, blockNo disk d k = x → V b) :
    Lists V own (update disk x b) i d := by
  have hstored : d.stored (update disk x b) = d.stored disk :=
    Dinode.stored_congr fun hne => update_of_ne (hind hne) ..
  constructor
  · rw [hstored]
    exact h.stored
  · intro hdir k hne
    have hk : blockNo (update disk x b) d k = blockNo disk d k :=
      congrFun hstored (.block k)
    rw [hk] at hne ⊢
    by_cases hx : blockNo disk d k = x
    · rw [hx, update_self]
      exact hb k hx
    · rw [update_of_ne hx]
      exact h.entries hdir k hne

/-- The blocks of the inode get the same owners. -/
theorem congr_own {own' : Nat → Owner} (h : Lists V own disk i d)
    (hown : ∀ pl, d.stored disk pl ≠ 0 → own' (d.stored disk pl) = own (d.stored disk pl)) :
    Lists V own' disk i d :=
  ⟨fun pl hne => (hown pl hne).trans (h.stored pl hne), h.entries⟩

end Lists

/-! ## The state -/

/-- The bit of a block after a write to the bitmap. -/
theorem bit_update (disk : Disk) (sb : Superblock) (b n : Nat) (B : Block) :
    bit (update disk (BBLOCK b sb.ninodes) B) sb n =
      if n / BPB = b / BPB then bitAt B (n % BPB) else bit disk sb n := by
  unfold bit
  by_cases hdiv : n / BPB = b / BPB
  · have hblock : BBLOCK n sb.ninodes = BBLOCK b sb.ninodes := by
      unfold BBLOCK
      rw [hdiv]
    rw [if_pos hdiv, hblock, update_self]
  · have hblock : BBLOCK n sb.ninodes ≠ BBLOCK b sb.ninodes := by
      unfold BBLOCK
      omega
    rw [if_neg hdiv, update_of_ne hblock]

/-- The superblock, the inodes and the bitmap follow each other. -/
theorem iblock_lt {sb : Superblock} {i : Nat} (hi : i < sb.ninodes) :
    IBLOCK i < sb.ninodes / IPB + 3 :=
  Nat.lt_succ_of_le (Nat.add_le_add_right (Nat.div_le_div_right hi.le) 2)

theorem le_bblock (sb : Superblock) (b : Nat) : sb.ninodes / IPB + 3 ≤ BBLOCK b sb.ninodes :=
  Nat.add_le_add_right (Nat.le_add_left ..) 3

theorem three_le_bblock (sb : Superblock) (b : Nat) : 3 ≤ BBLOCK b sb.ninodes :=
  (Nat.le_add_left ..).trans (le_bblock sb b)

/-- The disk after `bfree`. -/
def bfreed (disk : Disk) (sb : Superblock) (b : Nat) : Disk :=
  update (update disk b Bytes.zero) (BBLOCK b sb.ninodes)
    (clearBit (update disk b Bytes.zero (BBLOCK b sb.ninodes)) (b % BPB))

namespace Owned

variable {V : Block → Prop} {own : Nat → Owner} {sb : Superblock} {ex : Option Nat}
  {disk : Disk} {ic : Slot → Inode}

section Blocks

variable (h : Owned V own sb ex disk ic) {n : Nat} (hn : own n ≠ .system)

include h hn

theorem ne_of_lt {m : Nat} (hm : m < sb.ninodes / IPB + 3) : n ≠ m := by
  rintro rfl
  exact hn (h.system n hm)

theorem ne_zero : n ≠ 0 := h.ne_of_lt hn (Nat.succ_pos _)

theorem ne_super : n ≠ 1 := h.ne_of_lt hn (Nat.lt_of_lt_of_le (by decide) (Nat.le_add_left 3 _))

theorem ne_iblock {i : Nat} (hi : i < sb.ninodes) : n ≠ IBLOCK i :=
  h.ne_of_lt hn (iblock_lt hi)

theorem ne_bblock {b : Nat} (hb : Scanned sb b) : n ≠ BBLOCK b sb.ninodes := by
  rintro rfl
  exact hn (h.bitmap b hb)

theorem lt_max : n < 4294967296 := by
  have hscan : n / BPB * BPB < sb.size := h.scanned n hn
  have hsize : sb.size < 4294967296 := by
    rw [← h.super]
    exact le32_lt ..
  simp only [BPB, BSIZE] at hscan
  omega

end Blocks

variable {x : Nat}

theorem copy_write {b : Block} (hx : ∀ i < sb.ninodes, IBLOCK i ≠ x) {i : Nat} {d : Dinode}
    (hc : Copy sb ex (update disk x b) ic i d) : Copy sb ex disk ic i d := by
  cases hc with
  | slot href hvalid => exact .slot href hvalid
  | disk hi hex htype =>
      have hsame : dinodeOf (update disk x b) i = dinodeOf disk i :=
        congrArg (dinodeAt · i) (update_of_ne (hx i hi) ..)
      rw [hsame] at htype ⊢
      exact .disk hi hex htype

/-- A file of the system is not listed. -/
theorem stored_ne (h : Owned V own sb ex disk ic) {i : Nat} {d : Dinode}
    (hc : Copy sb ex disk ic i d) (hx : x ≠ 0) (hown : ∀ pl, own x ≠ .file i pl) (pl : Place) :
    d.stored disk pl ≠ x := by
  rintro rfl
  exact hown pl ((h.lists i d hc).stored pl hx)

/-- **A write to a block of a file**, if the inodes still list their blocks. -/
theorem write_of_lists (h : Owned V own sb ex disk ic) {b : Block} (hsys : own x ≠ .system)
    (hfree : own x ≠ .free)
    (hl : ∀ i d, Copy sb ex disk ic i d → Lists V own (update disk x b) i d) :
    Owned V own sb ex (update disk x b) ic where
  super := by
    rw [update_of_ne (h.ne_super hsys).symm]
    exact h.super
  system := h.system
  bitmap := h.bitmap
  scanned := h.scanned
  bits n hn := by
    have hbit : bit (update disk x b) sb n = bit disk sb n :=
      congrArg (bitAt · _) (update_of_ne (h.ne_bblock hsys hn).symm ..)
    rw [hbit]
    exact h.bits n hn
  zero n hn := by
    have hne : n ≠ x := fun heq => hfree (heq ▸ hn)
    rw [update_of_ne hne]
    exact h.zero n hn
  root := h.root
  range := h.range
  once := h.once
  lists i d hc := hl i d (copy_write (fun i hi => (h.ne_iblock hsys hi).symm) hc)

/-- **A write of data.** -/
theorem write (h : Owned V own sb ex disk ic) {x i k : Nat} {b : Block}
    (hx : own x = .file i (.block k)) (hb : V b) : Owned V own sb ex (update disk x b) ic := by
  refine h.write_of_lists (by rw [hx]; nofun) (by rw [hx]; nofun) fun j d hc => ?_
  refine (h.lists j d hc).write (fun hne heq => ?_) fun _ _ => hb
  have hown := (h.lists j d hc).stored .indirect hne
  rw [show d.stored disk .indirect = x from heq, hx] at hown
  cases hown

/-- No copy lists the block. -/
def Unlisted (sb : Superblock) (ex : Option Nat) (disk : Disk) (ic : Slot → Inode)
    (x : Nat) : Prop :=
  ∀ i d, Copy sb ex disk ic i d → ∀ pl, d.stored disk pl ≠ x

theorem unlisted_of_free (h : Owned V own sb ex disk ic) (hx : own x = .free) :
    Unlisted sb ex disk ic x := fun _ _ hc pl =>
  h.stored_ne hc (h.ne_zero (by rw [hx]; nofun)) (by rw [hx]; nofun) pl

/-- A block of the inode that is being freed, once its slot does not store it any more. -/
theorem unlisted_of_slot {i : Nat} (h : Owned V own sb (some i) disk ic) {pl : Place}
    (hx : own x = .file i pl) {ip : Slot} (href : 0 < (ic ip).ref) (hinum : (ic ip).inum = i)
    (hpl : (ic ip).d.stored disk pl ≠ x) :
    Unlisted sb (some i) disk ic x := by
  intro j d hc pl' heq
  have hne : d.stored disk pl' ≠ 0 := by
    rw [heq]
    exact h.ne_zero (by rw [hx]; nofun)
  have hown := (h.lists j d hc).stored pl' hne
  rw [heq, hx] at hown
  cases hown
  cases hc with
  | disk hi hex htype => exact hex rfl
  | @slot ip' href' hvalid =>
      obtain rfl : ip' = ip := h.once ip' ip href' href hinum.symm
      exact hpl heq

/-- **A new owner** for a block that nobody lists, with its bit. -/
theorem mark (h : Owned V own sb ex disk ic) {b : Nat} (hb : own b ≠ .system)
    (hun : Unlisted sb ex disk ic b) {x : Owner} (hzero : x = .free → disk b = Bytes.zero)
    {B : Block}
    (hB : ∀ j, (j ≠ b % BPB → bitAt B j = bitAt (disk (BBLOCK b sb.ninodes)) j) ∧
      (j = b % BPB → (bitAt B j = false ↔ x = .free))) :
    Owned V (update own b x) sb ex (update disk (BBLOCK b sb.ninodes) B) ic := by
  have hscan : Scanned sb b := h.scanned b hb
  have hother {n : Nat} (hn : n ≠ b) : update own b x n = own n :=
    update_of_ne hn ..
  have hmeta {n : Nat} (hn : own n = .system) : update own b x n = .system := by
    rw [hother fun heq => hb (heq ▸ hn), hn]
  refine
    { super := ?_
      system := fun n hn => hmeta (h.system n hn)
      bitmap := fun n hn => hmeta (h.bitmap n hn)
      scanned := fun n hn => ?_
      bits := fun n hn => ?_
      zero := fun n hn => ?_
      root := h.root
      range := h.range
      once := h.once
      lists := fun i d hc => ?_ }
  · have hne : 1 ≠ BBLOCK b sb.ninodes := by
      have := three_le_bblock sb b
      omega
    rw [update_of_ne hne]
    exact h.super
  · by_cases hnb : n = b
    · exact hnb ▸ hscan
    · rw [hother hnb] at hn
      exact h.scanned n hn
  · have hbit : bit (update disk (BBLOCK b sb.ninodes) B) sb n =
        if n / BPB = b / BPB then bitAt B (n % BPB) else bit disk sb n := bit_update ..
    rw [hbit]
    by_cases hnb : n = b
    · subst hnb
      rw [if_pos rfl, update_self]
      exact (hB _).2 rfl
    · rw [hother hnb, ← h.bits n hn]
      split
      · next hdiv =>
          have hmod : n % BPB ≠ b % BPB := fun hmod => hnb (by
            rw [← Nat.div_add_mod n BPB, hdiv, hmod, Nat.div_add_mod])
          have hblock : BBLOCK n sb.ninodes = BBLOCK b sb.ninodes := by
            unfold BBLOCK
            rw [hdiv]
          rw [(hB _).1 hmod, ← hblock]
          rfl
      · exact .rfl
  · have hfree {m : Nat} (hm : disk m = Bytes.zero) (hsys : own m ≠ .system) :
        (update disk (BBLOCK b sb.ninodes) B) m = Bytes.zero := by
      rw [update_of_ne (h.ne_bblock hsys hscan)]
      exact hm
    by_cases hnb : n = b
    · subst hnb
      rw [update_self] at hn
      exact hfree (hzero hn) hb
    · rw [hother hnb] at hn
      exact hfree (h.zero n hn) (by rw [hn]; nofun)
  · have hc' := copy_write (fun i hi => (Nat.lt_of_lt_of_le (iblock_lt hi) (le_bblock sb b)).ne) hc
    have hl := h.lists i d hc'
    have hsys : own (BBLOCK b sb.ninodes) = .system := h.bitmap b hscan
    have hne (pl : Place) : d.stored disk pl ≠ BBLOCK b sb.ninodes :=
      h.stored_ne hc' (Nat.ne_of_gt (Nat.lt_of_lt_of_le (by decide) (three_le_bblock sb b)))
        (by rw [hsys]; nofun) pl
    exact (hl.congr_own fun pl _ => hother (hun i d hc' pl)).write (fun _ => hne .indirect)
      fun k hk => absurd hk (hne (.block k))

/-- **`balloc`** gives a free block to a place of an inode. -/
theorem take (h : Owned V own sb ex disk ic) {b : Nat} (hb : FirstClear disk sb b) (i : Nat)
    (pl : Place) :
    own b = .free ∧ Owned V (update own b (.file i pl)) sb ex 
      (update disk (BBLOCK b sb.ninodes)
        (setBit (disk (BBLOCK b sb.ninodes)) (b % BPB))) ic := by
  have hfree : own b = .free := (h.bits b hb.scanned).mp hb.clear
  refine ⟨hfree, h.mark (by rw [hfree]; nofun) (h.unlisted_of_free hfree) (by nofun) ?_⟩
  intro j
  rw [bitAt_setBit _ (Nat.mod_lt _ bpb_pos)]
  constructor
  · intro hj
    rw [decide_eq_false hj, Bool.false_or]
  · intro hj
    rw [decide_eq_true hj, Bool.true_or]
    exact ⟨nofun, nofun⟩

/-- A write to a block that nobody lists. -/
theorem Unlisted.write (hun : Unlisted sb ex disk ic x) (hx : ∀ i < sb.ninodes, IBLOCK i ≠ x)
    (b : Block) : Unlisted sb ex (update disk x b) ic x := by
  intro i d hc pl
  have hc' := copy_write hx hc
  have hstored : d.stored (update disk x b) = d.stored disk :=
    Dinode.stored_congr fun _ => update_of_ne (hun i d hc' .indirect) ..
  rw [hstored]
  exact hun i d hc' pl

section

variable (h : Owned V own sb ex disk ic)

include h

/-- **`bfree`** takes a block from a file that does not list it any more. -/
theorem bfree {b i : Nat} {pl : Place} (hb : own b = .file i pl)
    (hun : Unlisted sb ex disk ic b) :
    Owned V (update own b .free) sb ex (bfreed disk sb b) ic := by
  have hsys : own b ≠ .system := by rw [hb]; nofun
  have hzeroed : Owned V own sb ex (update disk b Bytes.zero) ic :=
    h.write_of_lists hsys (by rw [hb]; nofun) fun j d hc =>
      (h.lists j d hc).write (fun _ => hun j d hc .indirect)
        fun k hk => absurd hk (hun j d hc (.block k))
  refine hzeroed.mark hsys (hun.write (fun i hi => (h.ne_iblock hsys hi).symm) _)
    (fun _ => update_self ..) fun j => ?_
  rw [bitAt_clearBit _ (Nat.mod_lt _ bpb_pos)]
  constructor
  · intro hj
    rw [decide_eq_true hj, Bool.true_and]
  · intro hj
    rw [decide_eq_false (not_not.mpr hj), Bool.false_and]
    exact ⟨fun _ => rfl, fun _ => rfl⟩

/-- **A write of an inode** to the disk. -/
theorem writeDinode {i : Nat} (hi : i < sb.ninodes)
    (hex : ∀ j, ex = some j → j = i) {d : Dinode} (hd : d.type ≠ 0 → Lists V own disk i d) :
    Owned V own sb none (update disk (IBLOCK i) (putDinode (disk (IBLOCK i)) i d)) ic := by
  have hblock : own (IBLOCK i) = .system := h.system _ (iblock_lt hi)
  have hne {n : Nat} (hn : own n ≠ .system) : n ≠ IBLOCK i := fun heq => hn (heq ▸ hblock)
  have hdinode {j : Nat} (hj : j ≠ i) :
      dinodeOf (update disk (IBLOCK i) (putDinode (disk (IBLOCK i)) i d)) j =
        dinodeOf disk j := by
    unfold dinodeOf
    by_cases hsame : IBLOCK j = IBLOCK i
    · have hmod : j % IPB ≠ i % IPB := fun hmod => hj (by
        have hdiv : j / IPB = i / IPB := Nat.add_right_cancel hsame
        rw [← Nat.div_add_mod j IPB, hdiv, hmod, Nat.div_add_mod])
      rw [hsame, show (update disk (IBLOCK i) _) (IBLOCK i) = _ from update_self ..,
        dinodeAt_putDinode_of_ne _ _ _ hmod]
    · rw [update_of_ne hsame]
  -- the lists are read from blocks of files, which the write leaves alone
  have hlists {j : Nat} {d' : Dinode} (hl : Lists V own disk j d') :
      Lists V own (update disk (IBLOCK i) (putDinode (disk (IBLOCK i)) i d)) j d' := by
    have hstored (pl : Place) (h0 : d'.stored disk pl ≠ 0) : d'.stored disk pl ≠ IBLOCK i :=
      hne (by rw [hl.stored pl h0]; nofun)
    exact hl.write (hstored .indirect) fun k hk => absurd hk (hstored (.block k) (by
      rw [show d'.stored disk (.block k) = IBLOCK i from hk]
      exact Nat.succ_ne_zero _))
  refine
    { super := ?_
      system := h.system
      bitmap := h.bitmap
      scanned := h.scanned
      bits := fun n hn => ?_
      zero := fun n hn => ?_
      root := h.root
      range := h.range
      once := h.once
      lists := fun j d' hc => ?_ }
  · have hone : 1 ≠ IBLOCK i :=
      Nat.ne_of_lt (Nat.lt_of_lt_of_le (by decide) (Nat.le_add_left 2 (i / IPB)))
    rw [update_of_ne hone]
    exact h.super
  · have hbit : BBLOCK n sb.ninodes ≠ IBLOCK i :=
      Nat.ne_of_gt (Nat.lt_of_lt_of_le (iblock_lt hi) (le_bblock sb n))
    rw [bit, update_of_ne hbit]
    exact h.bits n hn
  · rw [update_of_ne (hne (by rw [hn]; nofun))]
    exact h.zero n hn
  · cases hc with
    | slot href hvalid => exact hlists (h.lists _ _ (.slot href hvalid))
    | disk hj _ htype =>
        by_cases hji : j = i
        · subst hji
          have hself : dinodeOf (update disk (IBLOCK j) (putDinode (disk (IBLOCK j)) j d)) j =
              d := by
            unfold dinodeOf
            rw [show (update disk (IBLOCK j) _) (IBLOCK j) = _ from update_self ..,
              dinodeAt_putDinode_self]
          rw [hself] at htype ⊢
          exact hlists (hd htype)
        · rw [hdinode hji] at htype ⊢
          exact hlists (h.lists _ _ (.disk hj (fun heq => hji (hex j heq)) htype))

/-- **A change of a slot** of the cache. -/
theorem setIno {ip : Slot} {x : Inode}
    (hrange : 0 < x.ref → x.inum < sb.ninodes)
    (honce : 0 < x.ref → ∀ ip', ip' ≠ ip → 0 < (ic ip').ref →
      (ic ip').inum ≠ x.inum)
    (hlists : 0 < x.ref → x.valid = true → Lists V own disk x.inum x.d) :
    Owned V own sb ex disk (update ic ip x) := by
  have hself : update ic ip x ip = x := update_self ..
  have hother {ip' : Slot} (hip : ip' ≠ ip) : update ic ip x ip' = ic ip' :=
    update_of_ne hip ..
  refine { h with range := fun ip' => ?_, once := fun a b => ?_, lists := fun i d hc => ?_ }
  · by_cases hip : ip' = ip
    · rw [hip, hself]
      exact hrange
    · rw [hother hip]
      exact h.range ip'
  · by_cases ha : a = ip
    · by_cases hb : b = ip
      · exact fun _ _ _ => ha.trans hb.symm
      · rw [ha, hself, hother hb]
        exact fun hra hrb heq => absurd heq.symm (honce hra b hb hrb)
    · rw [hother ha]
      by_cases hb : b = ip
      · rw [hb, hself]
        exact fun hra hrb heq => absurd heq (honce hrb a ha hra)
      · rw [hother hb]
        exact h.once a b
  · cases hc with
    | disk hi hex htype => exact h.lists _ _ (.disk hi hex htype)
    | @slot ip' href hvalid =>
        by_cases hip : ip' = ip
        · rw [hip, hself] at href hvalid ⊢
          exact hlists href hvalid
        · rw [hother hip] at href hvalid ⊢
          exact h.lists _ _ (.slot href hvalid)

/-- The slot keeps its inode. -/
theorem modify {ip : Slot} {x : Inode}
    (hinum : x.inum = (ic ip).inum) (href : 0 < x.ref → 0 < (ic ip).ref)
    (hlists : 0 < x.ref → x.valid = true → Lists V own disk x.inum x.d) :
    Owned V own sb ex disk (update ic ip x) := by
  refine h.setIno (fun hr => ?_) (fun hr ip' hip hr' heq => ?_) hlists
  · rw [hinum]
    exact h.range ip (href hr)
  · exact hip (h.once ip' ip hr' (href hr) (heq.trans hinum))

end

/-- The copy on the disk of an inode does not count any more. -/
theorem excuse (h : Owned V own sb none disk ic) (i : Nat) : Owned V own sb (some i) disk ic :=
  { h with lists := fun j d hc => h.lists j d (by
      cases hc with
      | disk hj _ htype => exact .disk hj (by nofun) htype
      | slot href hvalid => exact .slot href hvalid) }

/-- A weaker condition on directories. -/
theorem weaken {V' : Block → Prop} (h : Owned V own sb ex disk ic) (hV : ∀ b, V b → V' b) :
    Owned V' own sb ex disk ic :=
  { h with lists := fun j d hc =>
      ⟨(h.lists j d hc).stored, fun hdir k hk => hV _ ((h.lists j d hc).entries hdir k hk)⟩ }

end Owned

end Xv6.Fs

import Xv6.Fs.Bitmap
import Xv6.Fs.Solo

/-! # What `balloc` returns

`balloc` looks at whole bitmap blocks. It returns the first block whose bit is clear, and that block
lies on the disk unless all blocks of the disk are in use and the last bitmap block has a clear bit
behind the end of the disk. -/

namespace Xv6.Fs

open Lib Prog

/-! ## The scan of one bitmap block -/

/-- The bit that the scan finds is clear, and it is the first one. -/
theorem findClear_some {bp : Block} {n bi k : Nat} (h : findClear bp n bi = some k) :
    bi ≤ k ∧ k < bi + n ∧ bitAt bp k = false ∧ ∀ j, bi ≤ j → j < k → bitAt bp j = true := by
  induction n generalizing bi with
  | zero => exact nomatch h
  | succ n ih =>
      unfold findClear at h
      split at h
      · next hbit =>
          obtain ⟨hle, hlt, hclear, hset⟩ := ih h
          refine ⟨by omega, by omega, hclear, fun j hj hjk => ?_⟩
          by_cases heq : j = bi
          · rw [heq]
            exact hbit
          · exact hset j (by omega) hjk
      · next hbit =>
          cases h
          exact ⟨le_rfl, by omega, by simpa using hbit, fun j hj hjk => by omega⟩

/-- If the scan finds nothing, all bits are set. -/
theorem findClear_none {bp : Block} {n bi : Nat} (h : findClear bp n bi = none) (j : Nat)
    (hj : bi ≤ j) (hlt : j < bi + n) : bitAt bp j = true := by
  induction n generalizing bi with
  | zero => omega
  | succ n ih =>
      unfold findClear at h
      split at h
      · next hbit =>
          by_cases heq : j = bi
          · rw [heq]
            exact hbit
          · exact ih h (by omega) (by omega)
      · exact nomatch h

/-! ## The bitmap of a disk -/

/-- The bit of a block. -/
def bit (disk : Disk) (sb : Superblock) (b : Nat) : Bool :=
  bitAt (disk (BBLOCK b sb.ninodes)) (b % BPB)

/-- The blocks whose bits `balloc` looks at: the whole bitmap blocks that begin on the disk. -/
def Scanned (sb : Superblock) (b : Nat) : Prop := b / BPB * BPB < sb.size

instance (sb : Superblock) (b : Nat) : Decidable (Scanned sb b) :=
  inferInstanceAs (Decidable (_ < _))

/-- No block is left: all bits that `balloc` looks at are set. -/
def Full (disk : Disk) (sb : Superblock) : Prop := ∀ j, Scanned sb j → bit disk sb j = true

/-- **The block that `balloc` takes**: the first one whose bit is clear. -/
structure FirstClear (disk : Disk) (sb : Superblock) (b : Nat) : Prop where
  scanned : Scanned sb b
  clear : bit disk sb b = false
  first : ∀ j < b, bit disk sb j = true

/-- The state after `balloc` has taken a block. -/
def ballocTake (s : FsState) (sb : Superblock) (b : Nat) : FsState :=
  s.write (BBLOCK b sb.ninodes) (setBit (s.disk (BBLOCK b sb.ninodes)) (b % BPB))

theorem bpb_pos : 0 < BPB := by decide

section Block

variable {m k : Nat}

theorem div_bpb_of_lt (hk : k < BPB) : (m * BPB + k) / BPB = m := by
  rw [Nat.add_comm, Nat.add_mul_div_right _ _ bpb_pos, Nat.div_eq_of_lt hk, Nat.zero_add]

theorem mod_bpb_of_lt (hk : k < BPB) : (m * BPB + k) % BPB = k := by
  rw [Nat.add_comm, Nat.add_mul_mod_self_right, Nat.mod_eq_of_lt hk]

/-- All bits of a bitmap block are in that block. -/
theorem bblock_of_lt (hk : k < BPB) (ninodes : Nat) :
    BBLOCK (m * BPB + k) ninodes = BBLOCK (m * BPB) ninodes := by
  unfold BBLOCK
  rw [div_bpb_of_lt hk, Nat.mul_div_cancel _ bpb_pos]

theorem bit_of_lt (disk : Disk) (sb : Superblock) (hk : k < BPB) :
    bit disk sb (m * BPB + k) = bitAt (disk (BBLOCK (m * BPB) sb.ninodes)) k := by
  unfold bit
  rw [bblock_of_lt hk, mod_bpb_of_lt hk]

/-- The bits before one of a bitmap block: those of the blocks before and those of this block. -/
theorem set_below {disk : Disk} {sb : Superblock} (hk : k ≤ BPB)
    (hbefore : ∀ j < m * BPB, bit disk sb j = true)
    (hset : ∀ j < k, bitAt (disk (BBLOCK (m * BPB) sb.ninodes)) j = true) (j : Nat)
    (hj : j < m * BPB + k) : bit disk sb j = true := by
  by_cases hjm : j < m * BPB
  · exact hbefore j hjm
  · obtain ⟨i, rfl⟩ := Nat.exists_eq_add_of_le (Nat.le_of_not_lt hjm)
    have hi : i < k := by omega
    rw [bit_of_lt disk sb (by omega)]
    exact hset i hi

theorem Scanned.lt {sb : Superblock} {j : Nat} (h : Scanned sb j) (hm : sb.size ≤ m * BPB) :
    j < m * BPB := by
  have hdiv : j / BPB < m := Nat.lt_of_mul_lt_mul_right (Nat.lt_of_lt_of_le h hm)
  exact (Nat.div_lt_iff_lt_mul bpb_pos).mp hdiv

end Block

section Outcome

variable {disk : Disk} {sb : Superblock} {b : Nat} {Q : Nat → Prop} {P : Prop}

theorem FirstClear.unique {b' : Nat} (h : FirstClear disk sb b) (h' : FirstClear disk sb b') :
    b' = b := by
  rcases Nat.lt_trichotomy b' b with hlt | heq | hlt
  · exact absurd (h.first b' hlt) (by rw [h'.clear]; simp)
  · exact heq
  · exact absurd (h'.first b hlt) (by rw [h.clear]; simp)

theorem FirstClear.not_full (h : FirstClear disk sb b) : ¬ Full disk sb := by
  intro hfull
  exact absurd (hfull b h.scanned) (by rw [h.clear]; simp)

/-- What happens when there is a clear bit. -/
theorem FirstClear.outcome (h : FirstClear disk sb b) :
    (∀ b, FirstClear disk sb b → Q b) ∧ (Full disk sb → P) ↔ Q b := by
  constructor
  · exact fun hQ => hQ.1 b h
  · refine fun hQ => ⟨fun b' hb' => ?_, fun hfull => absurd hfull h.not_full⟩
    rw [h.unique hb']
    exact hQ

/-- What happens when there is none. -/
theorem Full.outcome (h : Full disk sb) :
    (∀ b, FirstClear disk sb b → Q b) ∧ (Full disk sb → P) ↔ P :=
  ⟨fun hQ => hQ.2 h, fun hP => ⟨fun _ hb => absurd h hb.not_full, fun _ => hP⟩⟩

end Outcome

/-! ## The function -/

variable {p : Pid} {s : FsState} {sb : Superblock} {pan : String → Prop}

section Scan

variable {disk : Disk} {m bi : Nat}

/-- The scan of a bitmap block finds the first clear bit, if those of the blocks before are set. -/
theorem firstClear_of_findClear (hlt : m * BPB < sb.size)
    (hbefore : ∀ j < m * BPB, bit disk sb j = true)
    (hfind : findClear (disk (BBLOCK (m * BPB) sb.ninodes)) BPB 0 = some bi) :
    bi < BPB ∧ FirstClear disk sb (m * BPB + bi) := by
  obtain ⟨-, hbi, hclear, hfirst⟩ := findClear_some hfind
  rw [Nat.zero_add] at hbi
  refine ⟨hbi, ?_, (bit_of_lt disk sb hbi).trans hclear, ?_⟩
  · unfold Scanned
    rwa [div_bpb_of_lt hbi]
  · exact set_below hbi.le hbefore fun j hj => hfirst j (Nat.zero_le _) hj

/-- What `balloc` writes then. -/
theorem write_setBit (s : FsState) (hbi : bi < BPB) :
    s.write (BBLOCK (m * BPB) sb.ninodes) (setBit (s.disk (BBLOCK (m * BPB) sb.ninodes)) bi) =
      ballocTake s sb (m * BPB + bi) := by
  unfold ballocTake
  rw [bblock_of_lt hbi, mod_bpb_of_lt hbi]

/-- A scan that finds nothing shows that the bits of one more block are set. -/
theorem set_of_findClear (hbefore : ∀ j < m * BPB, bit disk sb j = true)
    (hfind : findClear (disk (BBLOCK (m * BPB) sb.ninodes)) BPB 0 = none) :
    ∀ j < (m + 1) * BPB, bit disk sb j = true := by
  have hset := findClear_none hfind
  rw [Nat.add_mul, Nat.one_mul]
  exact set_below le_rfl hbefore fun j hj => hset j (Nat.zero_le _) (by omega)

end Scan

/-- The outer loop, when the bits of all blocks before are set. -/
theorem alone_ballocLoop (hbuf : ∀ b, s.buf (BBLOCK b sb.ninodes) = none) {n m : Nat}
    {Q : Nat → FsState → Prop} (hn : sb.size ≤ (m + n) * BPB)
    (hbefore : ∀ j < m * BPB, bit s.disk sb j = true) :
    Alone p pan (ballocLoop sb n (m * BPB)) Q s ↔
      (∀ b, FirstClear s.disk sb b → Q b (ballocTake s sb b)) ∧
        (Full s.disk sb → pan "balloc: out of blocks") := by
  have hend {m : Nat} (hbefore : ∀ j < m * BPB, bit s.disk sb j = true)
      (hm : sb.size ≤ m * BPB) : Full s.disk sb := fun j hj => hbefore j (hj.lt hm)
  induction n generalizing m with
  | zero =>
      rw [(hend hbefore (by simpa using hn)).outcome]
      exact .rfl
  | succ n ih =>
      unfold ballocLoop
      split
      · next hlt =>
          rw [alone_bind, alone_bread (hbuf _)]
          have hheld : (s.setBuf (BBLOCK (m * BPB) sb.ninodes) (some p)).buf
              (BBLOCK (m * BPB) sb.ninodes) ≠ none := by
            rw [FsState.buf_setBuf]
            simp
          cases hfind : findClear (s.disk (BBLOCK (m * BPB) sb.ninodes)) BPB 0 with
          | some bi =>
              obtain ⟨hbi, hb⟩ := firstClear_of_findClear hlt hbefore hfind
              rw [hb.outcome]
              simp only
              rw [alone_bind, alone_bwrite hheld, alone_bind,
                alone_brelse (s := (s.setBuf _ _).write _ _) hheld,
                FsState.setBuf_write_setBuf (hbuf _), write_setBit s hbi]
              exact .rfl
          | none =>
              simp only
              rw [alone_bind, alone_brelse hheld, FsState.setBuf_setBuf (hbuf _),
                show m * BPB + BPB = (m + 1) * BPB by rw [Nat.add_mul, Nat.one_mul]]
              exact ih (by rwa [Nat.add_assoc, Nat.add_comm 1 n]) (set_of_findClear hbefore hfind)
      · next hge =>
          rw [(hend hbefore (Nat.le_of_not_lt hge)).outcome]
          exact .rfl

/-- **`balloc`, run alone**, takes the first block whose bit is clear, and panics if there is
none. -/
theorem alone_balloc (hsb : s.buf 1 = none)
    (hbuf : ∀ b, s.buf (BBLOCK b (superblockOf (s.disk 1)).ninodes) = none)
    {Q : Nat → FsState → Prop} :
    Alone p pan balloc Q s ↔
      (∀ b, FirstClear s.disk (superblockOf (s.disk 1)) b →
        Q b (ballocTake s (superblockOf (s.disk 1)) b)) ∧
        (Full s.disk (superblockOf (s.disk 1)) → pan "balloc: out of blocks") := by
  have hsize : (superblockOf (s.disk 1)).size ≤
      (0 + ((superblockOf (s.disk 1)).size / BPB + 1)) * BPB := by
    rw [Nat.zero_add]
    exact (Nat.lt_div_mul_add bpb_pos).le.trans_eq (by rw [Nat.add_mul, Nat.one_mul])
  have hloop : Alone p pan (ballocLoop (superblockOf (s.disk 1))
      ((superblockOf (s.disk 1)).size / BPB + 1) (0 * BPB)) Q s ↔ _ :=
    alone_ballocLoop hbuf hsize fun j hj => absurd hj (by omega)
  rw [Nat.zero_mul] at hloop
  unfold balloc readsb
  rw [alone_bind, alone_bind, alone_bread hsb, alone_bind,
    alone_brelse (by rw [FsState.buf_setBuf]; simp), FsState.setBuf_setBuf hsb]
  exact hloop

/-! ## Blocks of the disk -/

/-- A block of the disk is taken: its bit was clear, and setting it is all that changes. -/
structure Taken (disk : Disk) (sb : Superblock) (b : Nat) (disk' : Disk) : Prop where
  lt_size : b < sb.size
  clear : bit disk sb b = false
  bits : ∀ i < BPB, bitAt (disk' (BBLOCK b sb.ninodes)) i =
    (decide (i = b % BPB) || bitAt (disk (BBLOCK b sb.ninodes)) i)
  blocks : ∀ n ≠ BBLOCK b sb.ninodes, disk' n = disk n

theorem FirstClear.taken {b : Nat} (h : FirstClear s.disk sb b) (hlt : b < sb.size) :
    Taken s.disk sb b (ballocTake s sb b).disk where
  lt_size := hlt
  clear := h.clear
  bits i _ := by
    show bitAt (Function.update s.disk _ _ _) i = _
    rw [Function.update_self, bitAt_setBit _ (Nat.mod_lt _ bpb_pos)]
  blocks _ hn := Function.update_of_ne hn ..

/-- The condition under which `balloc` stays on the disk: a block of the disk is free, or no bit
behind the end of the disk is clear in the last bitmap block. -/
def RoomOnDisk (disk : Disk) (sb : Superblock) : Prop :=
  (∃ b < sb.size, bit disk sb b = false) ∨
    ∀ b, sb.size ≤ b → Scanned sb b → bit disk sb b = true

theorem FirstClear.lt_size {disk : Disk} {b : Nat} (h : FirstClear disk sb b)
    (hroom : RoomOnDisk disk sb) : b < sb.size := by
  by_contra hge
  rcases hroom with ⟨b', hlt, hclear⟩ | hset
  · exact absurd (h.first b' (by omega)) (by rw [hclear]; simp)
  · exact absurd (hset b (by omega) h.scanned) (by rw [h.clear]; simp)

/-- If some bit is clear, there is a first one. -/
theorem exists_firstClear {disk : Disk} {b : Nat} (hb : Scanned sb b)
    (hclear : bit disk sb b = false) : ∃ b' ≤ b, FirstClear disk sb b' := by
  classical
  have hex : ∃ b, bit disk sb b = false := ⟨b, hclear⟩
  have hle : Nat.find hex ≤ b := Nat.find_min' hex hclear
  refine ⟨Nat.find hex, hle, ?_, Nat.find_spec hex, fun j hj => ?_⟩
  · exact Nat.lt_of_le_of_lt (Nat.mul_le_mul_right _ (Nat.div_le_div_right hle)) hb
  · simpa using Nat.find_min hex hj

/-- **`balloc` stays on the disk exactly when there is room**: run alone, it panics for lack of
blocks or takes a block of the disk, if and only if a block of the disk is free or the bits behind
the end of the disk are all set. -/
theorem balloc_takes_iff_roomOnDisk (p : Pid) (s : FsState) (hsb : s.buf 1 = none)
    (hbuf : ∀ b, s.buf (BBLOCK b (superblockOf (s.disk 1)).ninodes) = none) :
    Alone p (· = "balloc: out of blocks") balloc
        (fun b t => Taken s.disk (superblockOf (s.disk 1)) b t.disk) s ↔
      RoomOnDisk s.disk (superblockOf (s.disk 1)) := by
  rw [alone_balloc hsb hbuf]
  constructor
  · rintro ⟨htaken, -⟩
    refine or_iff_not_imp_left.mpr fun hnone b hge hb => ?_
    by_contra hset
    obtain ⟨b', -, hfirst⟩ := exists_firstClear hb (by simpa using hset)
    exact hnone ⟨b', (htaken b' hfirst).lt_size, hfirst.clear⟩
  · exact fun hroom => ⟨fun b hb => hb.taken (hb.lt_size hroom), fun _ => rfl⟩

/-- A disk of 1024 blocks with 200 inodes, of which the first `8 * k` blocks are in use. -/
def diskInUse (k : Nat) : Disk := fun n =>
  if n = 1 then Bytes.zero.blit 0 (bytes32 1024 ++ bytes32 995 ++ bytes32 200)
  else if n = 28 then Bytes.zero.blit 0 (List.replicate k 255)
  else Bytes.zero

theorem superblock_diskInUse (k : Nat) : superblockOf (diskInUse k 1) = ⟨1024, 995, 200⟩ := by
  show superblockOf (Bytes.zero.blit 0 (bytes32 1024 ++ bytes32 995 ++ bytes32 200)) = _
  decide +kernel

theorem balloc_takes_eight_left :
    RoomOnDisk (diskInUse 127) ⟨1024, 995, 200⟩ ∧
      Alone initproc (· = "balloc: out of blocks") balloc
        (fun b t => Taken (diskInUse 127) ⟨1024, 995, 200⟩ b t.disk)
        (FsState.boot (diskInUse 127)) := by
  have hroom : RoomOnDisk (diskInUse 127) ⟨1024, 995, 200⟩ :=
    .inl ⟨1016, by decide, by decide +kernel⟩
  have hiff := balloc_takes_iff_roomOnDisk initproc (FsState.boot (diskInUse 127)) rfl fun _ => rfl
  rw [show (FsState.boot (diskInUse 127)).disk = diskInUse 127 from rfl,
    superblock_diskInUse] at hiff
  exact ⟨hroom, hiff.mpr hroom⟩

/-- **A full disk**: the bits of all 1024 blocks are set, those of the metadata among them, and
`balloc` returns block 1024, which is not on the disk. -/
theorem balloc_leaves_full_disk :
    (∀ b < 1024, bit (diskInUse 128) ⟨1024, 995, 200⟩ b = true) ∧
      Alone initproc (fun _ => False) balloc (fun b _ => b = 1024) (FsState.boot (diskInUse 128)) ∧
      ¬ Alone initproc (· = "balloc: out of blocks") balloc
        (fun b t => Taken (diskInUse 128) ⟨1024, 995, 200⟩ b t.disk)
        (FsState.boot (diskInUse 128)) := by
  have hfirst : FirstClear (diskInUse 128) ⟨1024, 995, 200⟩ 1024 :=
    ⟨by decide, by decide +kernel, by decide +kernel⟩
  have hboot : (FsState.boot (diskInUse 128)).disk = diskInUse 128 := rfl
  refine ⟨hfirst.first, ?_, ?_⟩
  · rw [alone_balloc rfl fun _ => rfl, hboot, superblock_diskInUse]
    exact ⟨fun b hb => hfirst.unique hb, hfirst.not_full⟩
  · rw [alone_balloc rfl fun _ => rfl, hboot, superblock_diskInUse]
    exact fun h => absurd (h.1 1024 hfirst).lt_size (by decide)

end Xv6.Fs

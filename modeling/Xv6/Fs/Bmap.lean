import Xv6.Fs.Guard

/-! # What `bmap` does

`bmap` finds the block in the map of the inode, or takes a free block and stores its number in a
place of the inode; for the first block behind the direct ones it takes a block for the numbers
before. In each case the blocks keep their owners, and the new blocks get theirs. -/

namespace Xv6

open Lib Fs Prog

open Function (update update_eq_self update_idem update_of_ne update_self)

namespace Fs

/-- **What `bmap` does**: `Bmaps sb ip bn s b t` if it returns `b` and leads from `s` to `t`. -/
inductive Bmaps (sb : Superblock) (ip : Slot) (bn : Nat) : FsState → Nat → FsState → Prop
  /-- The block is there. -/
  | found {s : FsState} (h : blockNo s.disk (s.icache ip).d bn ≠ 0) :
      Bmaps sb ip bn s (blockNo s.disk (s.icache ip).d bn) s
  /-- A free block becomes a direct one. -/
  | direct {s : FsState} {b : Nat} (hbn : bn < NDIRECT) (h0 : (s.icache ip).d.direct bn = 0)
      (hb : FirstClear s.disk sb b) :
      Bmaps sb ip bn s b
        ((ballocTake s sb b).setCopy ip ((s.icache ip).d.setAddr ⟨bn, Nat.lt_succ_of_lt hbn⟩ b))
  /-- A free block is entered in the indirect block. -/
  | entry {s : FsState} {b : Nat} (hge : NDIRECT ≤ bn) (hlt : bn < MAXFILE)
      (hind : (s.icache ip).d.indirect ≠ 0)
      (h0 : addrAt (s.disk (s.icache ip).d.indirect) (bn - NDIRECT) = 0)
      (hb : FirstClear s.disk sb b) :
      Bmaps sb ip bn s b
        ((ballocTake s sb b).write (s.icache ip).d.indirect
          (putAddr (s.disk (s.icache ip).d.indirect) (bn - NDIRECT) b))
  /-- A free block becomes the indirect block first. -/
  | grow {s t : FsState} {x b : Nat} (hind : (s.icache ip).d.indirect = 0)
      (hx : FirstClear s.disk sb x)
      (h : Bmaps sb ip bn ((ballocTake s sb x).setCopy ip ((s.icache ip).d.setAddr 12 x)) b t) :
      Bmaps sb ip bn s b t

section

variable {V : Block → Prop} {own : Nat → Owner} {sb : Superblock} {ex : Option Nat}
  {s t : FsState} {ip : Slot} {bn b : Nat} {p : Pid}

section

variable (h : Owned V own sb ex s.disk s.icache)

include h

/-- The inode that a slot in use has. -/
theorem Owned.lists_slot (hip : s.InUse ip) :
    Lists V own s.disk (s.icache ip).inum (s.icache ip).d :=
  h.lists _ _ (.slot hip.ref hip.valid)

/-- A copy in the cache is replaced. -/
theorem Owned.setCopy {d : Dinode}
    (hd : Lists V own s.disk (s.icache ip).inum d) :
    Owned V own sb ex (s.setCopy ip d).disk (s.setCopy ip d).icache :=
  h.modify rfl (fun href => href) fun _ _ => hd

/-- A free block is zero, and stays so while its bit is set. -/
theorem Owned.disk_take (hb : FirstClear s.disk sb b) :
    (ballocTake s sb b).disk b = Bytes.zero := by
  have hfree : own b = .free := (h.bits b hb.scanned).mp hb.clear
  have hsys : own b ≠ .system := by rw [hfree]; nofun
  exact (update_of_ne (h.ne_bblock hsys hb.scanned) ..).trans (h.zero b hfree)

/-- `bmap` takes a free block for the inode, and the number is not stored yet. -/
theorem Owned.balloc (hb : FirstClear s.disk sb b)
    (i : Nat) (pl : Place) :
    ∃ own', Owned V own' sb ex (ballocTake s sb b).disk (ballocTake s sb b).icache ∧
      own' b = .file i pl ∧ b ≠ 0 ∧ b < 4294967296 := by
  obtain ⟨hfree, hown⟩ := h.take hb i pl
  have hsys : own b ≠ .system := by rw [hfree]; nofun
  exact ⟨_, hown, update_self .., h.ne_zero hsys, h.lt_max hsys⟩

end

/-- The first step of `grow`. -/
theorem Owned.growIndirect (hV : V Bytes.zero) (h : Owned V own sb ex s.disk s.icache)
    (hip : s.InUse ip) (hind : (s.icache ip).d.indirect = 0) {x : Nat}
    (hx : FirstClear s.disk sb x) :
    ∃ own', Owned V own' sb ex ((ballocTake s sb x).setCopy ip ((s.icache ip).d.setAddr 12 x)).disk
        ((ballocTake s sb x).setCopy ip ((s.icache ip).d.setAddr 12 x)).icache ∧
      own' x = .file (s.icache ip).inum .indirect ∧ x ≠ 0 ∧ x < 4294967296 := by
  obtain ⟨own', hown, hx', hne, hmax⟩ := h.balloc hx (s.icache ip).inum .indirect
  have hzero := h.disk_take hx
  refine ⟨own', hown.setCopy ?_, hx', hne, hmax⟩
  exact (hown.lists_slot (s := ballocTake s sb x) ⟨hip.ref, hip.valid⟩).insert hx'
    (by rw [hzero]; exact hV) (Dinode.stored_setAddr_indirect hind hmax hzero) (fun _ _ => rfl) rfl

/-- **The blocks have owners after `bmap`**, and the block returned is the one in the map. -/
theorem Bmaps.owned (hV : V Bytes.zero) (h : Bmaps sb ip bn s b t)
    (ho : Owned V own sb ex s.disk s.icache) (hip : s.InUse ip) :
    ∃ own', Owned V own' sb ex t.disk t.icache ∧
      blockNo t.disk (t.icache ip).d bn = b ∧ b ≠ 0 := by
  induction h generalizing own with
  | found h => exact ⟨own, ho, rfl, h⟩
  | @direct s b hbn h0 hb =>
      obtain ⟨own', hown, hb', hne, hmax⟩ := ho.balloc hb (s.icache ip).inum (.block bn)
      have hstored : ((s.icache ip).d.setAddr ⟨bn, Nat.lt_succ_of_lt hbn⟩ b).stored
          (ballocTake s sb b).disk = _ := Dinode.stored_setAddr hbn hmax
      refine ⟨own', hown.setCopy ?_, ?_, hne⟩
      · refine (hown.lists_slot (s := ballocTake s sb b) ⟨hip.ref, hip.valid⟩).insert hb' ?_ hstored
          (fun _ _ => rfl) rfl
        rw [ho.disk_take hb]
        exact hV
      · rw [icache_setCopy]
        exact (congrFun hstored (.block bn)).trans (update_self ..)
  | @entry s b hge hlt hind h0 hb =>
      obtain ⟨own', hown, hb', hne, hmax⟩ := ho.balloc hb (s.icache ip).inum (.block bn)
      have hl := hown.lists_slot (s := ballocTake s sb b) ⟨hip.ref, hip.valid⟩
      have hX : own' (s.icache ip).d.indirect = .file (s.icache ip).inum .indirect :=
        hl.stored .indirect hind
      have hsame : (ballocTake s sb b).disk (s.icache ip).d.indirect =
          s.disk (s.icache ip).d.indirect :=
        update_of_ne (hown.ne_bblock (by rw [hX]; nofun) hb.scanned) ..
      have hstored (d : Dinode) (hd : d.indirect = (s.icache ip).d.indirect) :
          d.stored (update (ballocTake s sb b).disk (s.icache ip).d.indirect
              (putAddr (s.disk (s.icache ip).d.indirect) (bn - NDIRECT) b)) =
            update (d.stored (ballocTake s sb b).disk) (.block bn) b := by
        have : d.stored (update (ballocTake s sb b).disk _ _) = _ :=
          Dinode.stored_putAddr (by rw [hd]; exact hind) hge hlt hmax
        rwa [hd, hsame] at this
      refine ⟨own', hown.write_of_lists (by rw [hX]; nofun) (by rw [hX]; nofun) fun j d hc => ?_,
        (congrFun (hstored _ rfl) (.block bn)).trans (update_self ..), hne⟩
      have hld := hown.lists j d hc
      have hblock (k : Nat) (hk : blockNo (ballocTake s sb b).disk d k ≠ 0) :
          blockNo (ballocTake s sb b).disk d k ≠ (s.icache ip).d.indirect := fun heq => by
        have hown := hld.stored (.block k) hk
        rw [show d.stored _ (.block k) = _ from heq, hX] at hown
        cases hown
      by_cases hd : d.indirect = (s.icache ip).d.indirect
      · -- a copy of the same inode, which gets the same entry
        have hj := hld.stored .indirect (hd ▸ hind : d.indirect ≠ 0)
        rw [show d.stored _ .indirect = _ from hd, hX] at hj
        cases hj
        refine hld.insert hb' ?_ (hstored d hd) (fun k hk => ?_) rfl
        · rw [update_of_ne (fun heq => by rw [← heq, hb'] at hX; cases hX),
            ho.disk_take hb]
          exact hV
        · exact update_of_ne (hblock k hk) ..
      · exact hld.write (fun _ => hd) fun k hk => absurd hk (hblock k (by rw [hk]; exact hind))
  | @grow s t x b hind hx h ih =>
      obtain ⟨own', hown, -⟩ := ho.growIndirect hV hip hind hx
      exact ih hown (FsState.InUse.setCopy (s := ballocTake s sb x) ⟨hip.ref, hip.valid⟩ _)

/-- What `bmap` leaves alone. -/
theorem Bmaps.frame (h : Bmaps sb ip bn s b t) :
    t.buf = s.buf ∧ ∃ d : Dinode, d.type = (s.icache ip).d.type ∧ d.size = (s.icache ip).d.size ∧
      t.icache = update s.icache ip { s.icache ip with d := d } := by
  induction h with
  | @found s h => exact ⟨rfl, _, rfl, rfl, (update_eq_self ..).symm⟩
  | @direct s b hbn h0 hb =>
      exact ⟨rfl, (s.icache ip).d.setAddr ⟨bn, Nat.lt_succ_of_lt hbn⟩ b, rfl, rfl, rfl⟩
  | @entry s b hge hlt hind h0 hb => exact ⟨rfl, _, rfl, rfl, (update_eq_self ..).symm⟩
  | @grow s t x b hind hx h ih =>
      obtain ⟨hbuf, d, htype, hsize, hic⟩ := ih
      rw [icache_setCopy] at htype hsize hic
      refine ⟨hbuf, d, htype, hsize, hic.trans ?_⟩
      exact update_idem ..

theorem Bmaps.inUse (h : Bmaps sb ip bn s b t) (hip : s.InUse ip) : t.InUse ip := by
  obtain ⟨-, d, -, -, hic⟩ := h.frame
  constructor
  · rw [hic, update_self]
    exact hip.ref
  · rw [hic, update_self]
    exact hip.valid

/-! ## The program -/

/-- The end of `bmap`, with the indirect block there. -/
theorem guarded_bmapEntry (ho : Owned V own sb ex s.disk s.icache) (hip : s.InUse ip)
    (hx : Only p s none) (hge : NDIRECT ≤ bn) (hlt : bn < MAXFILE)
    (hind : (s.icache ip).d.indirect ≠ 0) {Q : Nat → FsState → Prop}
    (hQ : ∀ b t, Bmaps sb ip bn s b t → Q b t) :
    Guarded p (do
      let bp ← bread (s.icache ip).d.indirect
      if addrAt bp (bn - NDIRECT) = 0 then do
        let addr ← balloc
        bwrite (s.icache ip).d.indirect (putAddr bp (bn - NDIRECT) addr)
        brelse (s.icache ip).d.indirect
        pure addr
      else do
        brelse (s.icache ip).d.indirect
        pure (addrAt bp (bn - NDIRECT))) Q s := by
  have hX : own (s.icache ip).d.indirect = .file (s.icache ip).inum .indirect :=
    (ho.lists_slot hip).stored .indirect hind
  have hsys : own (s.icache ip).d.indirect ≠ .system := by rw [hX]; nofun
  refine guarded_bind.mpr (guarded_bread hx (by nofun) fun hfree => ?_)
  split
  · next h0 =>
      -- the indirect block is held while `balloc` reads the superblock and the bitmap
      refine guarded_bind.mpr (guarded_balloc (s := s.setBuf _ _) ho.super (hx.setBuf _)
        (fun heq => ho.ne_super hsys (Option.some.inj heq))
        (fun b hb heq => ho.ne_bblock hsys hb (Option.some.inj heq)) fun b hb => ?_)
      refine guarded_bind.mpr (guarded_bwrite (s := ballocTake s sb b) (guarded_bind.mpr
        (guarded_brelse (s := (ballocTake s sb b).write _ _) hfree ?_)))
      exact hQ _ _ (.entry hge hlt hind h0 hb)
  · next h0 =>
      refine guarded_bind.mpr (guarded_brelse hfree ?_)
      have hno : blockNo s.disk (s.icache ip).d bn = _ := blockNo_of_ge hge hind
      rw [← hno]
      exact hQ _ _ (.found (by rw [hno]; exact h0))

/-- **`bmap`** is careful with buffers. -/
theorem guarded_bmap (hV : V Bytes.zero) (ho : Owned V own sb ex s.disk s.icache)
    (hip : s.InUse ip) (hx : Only p s none) {Q : Nat → FsState → Prop}
    (hQ : ∀ b t, Bmaps sb ip bn s b t → Q b t) : Guarded p (bmap ip bn) Q s := by
  refine guarded_bind.mpr (guarded_inode ?_)
  split
  · next hbn =>
      split
      · next h0 =>
          refine guarded_bind.mpr (guarded_balloc ho.super hx (by nofun) (by nofun) fun b hb => ?_)
          exact guarded_bind.mpr (guarded_setInode (hQ _ _ (.direct hbn h0 hb)))
      · next h0 =>
          have hno : blockNo s.disk (s.icache ip).d bn = _ := blockNo_of_lt hbn
          rw [← hno]
          exact hQ _ _ (.found (by rw [hno]; exact h0))
  · next hbn =>
      split
      · next hlt =>
          have hge : NDIRECT ≤ bn := Nat.le_of_not_lt hbn
          have hmax : bn < MAXFILE := by
            unfold MAXFILE
            omega
          unfold bmapIndirect
          split
          · next hind =>
              refine guarded_bind.mpr (guarded_bind.mpr (guarded_balloc ho.super hx (by nofun)
                (by nofun) fun b hb => guarded_bind.mpr (guarded_setInode ?_)))
              obtain ⟨own', hown, -, hne, hlt⟩ := ho.growIndirect hV hip hind hb
              have hcopy := icache_setCopy (ballocTake s sb b) ip ((s.icache ip).d.setAddr 12 b)
              have hind' : (((ballocTake s sb b).setCopy ip
                  ((s.icache ip).d.setAddr 12 b)).icache ip).d.indirect = b := by
                rw [hcopy]
                exact Dinode.indirect_setAddr _ hlt
              have hentry := guarded_bmapEntry (p := p) (Q := Q) hown
                (FsState.InUse.setCopy (s := ballocTake s sb b) ⟨hip.ref, hip.valid⟩ _) hx hge hmax
                (by rw [hind']; exact hne) fun b' t hb' => hQ b' t (.grow hind hb hb')
              rw [hind'] at hentry
              exact hentry
          · next hind => exact guarded_bmapEntry ho hip hx hge hmax hind hQ
      · exact trivial

end

end Fs

end Xv6

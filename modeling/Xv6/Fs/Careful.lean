import Xv6.Fs.Bmap

/-! # The functions of `fs.c` are careful with buffers

A function of `fs.c` holds an indirect block while it allocates or frees other blocks, and must not
ask for it again on the way. That an indirect block is neither the superblock nor a bitmap block,
and that it does not list itself, follows from block ownership, which every function keeps. -/

namespace Xv6.Fs

open Lib Prog

open Function (update update_apply update_of_ne update_self)

variable {V : Block → Prop} {sb : Superblock} {p : Pid} {s t : FsState} {ip : Slot}

/-- **Between the operations of a process**: the blocks have owners, and it holds no buffer. -/
structure Sound (V : Block → Prop) (sb : Superblock) (p : Pid) (s : FsState) : Prop where
  owned : ∃ own, Owned V own sb none s.disk s.icache
  idle : Only p s none

/-- While the inode `i` in a slot is freed. -/
structure Freeing (V : Block → Prop) (sb : Superblock) (p : Pid) (ip : Slot) (i : Nat)
    (s : FsState) : Prop where
  owned : ∃ own, Owned V own sb (some i) s.disk s.icache
  idle : Only p s none
  use : s.InUse ip
  inum : (s.icache ip).inum = i

/-! ## Freeing blocks -/

theorem Dinode.stored_clear (d : Dinode) (disk : Disk) {k : Nat} (hk : k < NDIRECT) (pl : Place) :
    (d.setAddr ⟨k, Nat.lt_succ_of_lt hk⟩ 0).stored disk pl =
      if pl = .block k then 0 else d.stored disk pl := by
  rw [Dinode.stored_setAddr hk (by decide), update_apply]

theorem Dinode.stored_clearIndirect (d : Dinode) (disk : Disk) (pl : Place) :
    (d.setAddr 12 0).stored disk pl = 0 ∨
      (d.setAddr 12 0).stored disk pl = d.stored disk pl ∧ ∃ k < NDIRECT, pl = .block k := by
  have hind : (d.setAddr 12 0).indirect = 0 := d.indirect_setAddr (by decide)
  cases pl with
  | indirect => exact .inl hind
  | block k =>
      by_cases hk : k < NDIRECT
      · refine .inr ⟨?_, k, hk, rfl⟩
        show blockNo _ _ _ = blockNo _ _ _
        rw [blockNo_of_lt hk, blockNo_of_lt hk, d.direct_setAddr_indirect]
      · exact .inl (blockNo_of_indirect_eq (Nat.le_of_not_lt hk) hind)

variable {own : Nat → Owner} {ic : Slot → Inode} {i : Nat}

/-- A block of the inode that is freed, when its slot does not store it any more. -/
theorem Owned.bfreeSlot {disk : Disk} {i b : Nat} {pl : Place} (h : Owned V own sb (some i) disk ic)
    (href : 0 < (ic ip).ref) (hinum : (ic ip).inum = i) (hb : own b = .file i pl)
    (hpl : (ic ip).d.stored disk pl = 0) :
    Owned V (update own b .free) sb (some i) (bfreed disk sb b) ic := by
  refine h.bfree hb (h.unlisted_of_slot hb href hinum ?_)
  rw [hpl]
  exact (h.ne_zero (by rw [hb]; nofun)).symm

/-- `bfree` of a block of a file, while at most another block of a file is held. -/
theorem guarded_bfree_file {ex x : Option Nat} {b : Nat} (ho : Owned V own sb ex s.disk ic)
    (hb : own b ≠ .system) (hx : Only p s x) (hxb : x ≠ some b)
    (hxsys : ∀ n, x = some n → own n ≠ .system) {Q : Unit → FsState → Prop}
    (hQ : Q () { s with disk := bfreed s.disk sb b }) :
    Guarded p (bfree b) Q s := by
  have hsb : superblockOf ((s.write b Bytes.zero).disk 1) = sb :=
    (congrArg superblockOf (update_of_ne (ho.ne_super hb).symm ..)).trans ho.super
  exact guarded_bfree hsb hx hxb (fun h1 => ho.ne_super (hxsys 1 h1) rfl)
    (fun hB => ho.ne_bblock (hxsys _ hB) (ho.scanned b hb) rfl) hQ

theorem guarded_itruncAddr (h : Freeing V sb p ip i s) (k : Fin NDIRECT) :
    Guarded p (itruncAddr ip k) (fun _ => Freeing V sb p ip i) s := by
  obtain ⟨⟨own, ho⟩, hidle, huse, rfl⟩ := h
  refine guarded_bind.mpr (guarded_inode ?_)
  split
  · exact ⟨⟨own, ho⟩, hidle, huse, rfl⟩
  · next hne =>
      have hl := ho.lists_slot huse
      have hb : own ((s.icache ip).d.direct k) = .file (s.icache ip).inum (.block k) := by
        have := hl.stored (.block k)
        rw [show (s.icache ip).d.stored s.disk (.block k) = _ from blockNo_of_lt k.isLt] at this
        exact this hne
      refine guarded_bind.mpr (guarded_bfree_file ho (by rw [hb]; nofun) hidle (by nofun)
        (by nofun) (guarded_setInode ?_))
      have hstored := Dinode.stored_clear (s.icache ip).d s.disk k.isLt
      have hcleared : Owned V own sb (some (s.icache ip).inum) s.disk
          (s.setCopy ip ((s.icache ip).d.setAddr k.castSucc 0)).icache :=
        ho.setCopy (hl.drop (fun pl => by
          rw [show (s.icache ip).d.setAddr k.castSucc 0 =
            (s.icache ip).d.setAddr ⟨k, Nat.lt_succ_of_lt k.isLt⟩ 0 from rfl, hstored]
          split
          · exact .inl rfl
          · exact .inr rfl) fun h => h)
      have huse' := huse.setCopy ((s.icache ip).d.setAddr k.castSucc 0)
      have hinum := inum_setCopy s ip ((s.icache ip).d.setAddr k.castSucc 0)
      refine ⟨⟨_, hcleared.bfreeSlot huse'.ref hinum hb ?_⟩, hidle, ⟨huse'.ref, huse'.valid⟩, hinum⟩
      rw [icache_setCopy]
      exact (hstored (.block k)).trans (if_pos rfl)

theorem guarded_itruncDirect (is : List (Fin NDIRECT)) (h : Freeing V sb p ip i s) :
    Guarded p (itruncDirect ip is) (fun _ => Freeing V sb p ip i) s := by
  induction is generalizing s with
  | nil => exact h
  | cons k is ih => exact (guarded_itruncAddr h k).bind fun _ _ => ih

/-- The loop of `itrunc` over the entries of the indirect block, which is held. In the cache `ic`
the inode does not list it any more. -/
theorem guarded_itruncEntries {i X n j : Nat} {a : Block} (ho : Owned V own sb (some i) s.disk ic)
    (href : 0 < (ic ip).ref) (hinum : (ic ip).inum = i) (hind : (ic ip).d.indirect = 0)
    (hheld : Only p s (some X)) (hX : own X = .file i .indirect)
    (ha : ∀ k, j ≤ k → addrAt a k ≠ 0 → own (addrAt a k) = .file i (.block (NDIRECT + k)))
    {Q : Unit → FsState → Prop}
    (hQ : ∀ own' t, Owned V own' sb (some i) t.disk ic → own' X = .file i .indirect →
      t.buf = s.buf → t.icache = s.icache → Q () t) :
    Guarded p (itruncEntries a n j) Q s := by
  induction n generalizing own s j with
  | zero => exact hQ own s ho hX rfl rfl
  | succ n ih =>
      unfold itruncEntries
      split
      · exact guarded_bind.mpr (ih ho hheld hX (fun k hk => ha k (by omega)) hQ)
      · next hne =>
          have hb := ha j le_rfl hne
          have hbX : addrAt a j ≠ X := fun heq => by
            rw [heq, hX] at hb
            cases hb
          refine guarded_bind.mpr (guarded_bfree_file ho (by rw [hb]; nofun) hheld
            (fun h => hbX (Option.some.inj h).symm)
            (fun m hm => by rw [← Option.some.inj hm, hX]; nofun) ?_)
          have hpl : (ic ip).d.stored s.disk (.block (NDIRECT + j)) = 0 :=
            blockNo_of_indirect_eq (Nat.le_add_right ..) hind
          have hfreed := ho.bfreeSlot href hinum hb hpl
          refine ih (s := { s with disk := bfreed s.disk sb (addrAt a j) }) hfreed hheld ?_
            (fun k hk hk0 => ?_) hQ
          · rw [update_of_ne hbX.symm]
            exact hX
          · have hk' := ha k (by omega) hk0
            rw [update_of_ne (fun heq => by
              rw [heq, hb] at hk'
              have := Place.block.inj (Owner.file.inj hk').2
              omega)]
            exact hk'

theorem guarded_itruncIndirect (h : Freeing V sb p ip i s) :
    Guarded p (itruncIndirect ip) (fun _ => Freeing V sb p ip i) s := by
  obtain ⟨⟨own, ho⟩, hidle, huse, rfl⟩ := h
  refine guarded_bind.mpr (guarded_inode ?_)
  split
  · exact ⟨⟨own, ho⟩, hidle, huse, rfl⟩
  · next hne =>
      have hl := ho.lists_slot huse
      have hX : own (s.icache ip).d.indirect = .file (s.icache ip).inum .indirect :=
        hl.stored .indirect hne
      refine guarded_bind.mpr (guarded_bread hidle (by nofun) fun hfree => ?_)
      -- from here on, the inode does not list the indirect block any more
      have hdrop : Lists V own s.disk (s.icache ip).inum ((s.icache ip).d.setAddr 12 0) :=
        hl.drop (fun pl => (Dinode.stored_clearIndirect _ _ pl).imp id And.left) fun h => h
      have huse' := huse.setCopy ((s.icache ip).d.setAddr 12 0)
      have hind : ((s.setCopy ip ((s.icache ip).d.setAddr 12 0)).icache ip).d.indirect = 0 := by
        rw [icache_setCopy]
        exact Dinode.indirect_setAddr _ (by decide)
      have hinum := inum_setCopy s ip ((s.icache ip).d.setAddr 12 0)
      refine guarded_bind.mpr (guarded_itruncEntries (s := s.setBuf _ _) (ho.setCopy hdrop)
        huse'.ref hinum hind (hidle.setBuf _) hX (fun k _ hk => ?_) fun own' t ht hX' hbuf hic => ?_)
      · have hno : blockNo s.disk (s.icache ip).d (NDIRECT + k) = _ :=
          blockNo_of_ge (Nat.le_add_right NDIRECT k) hne
        rw [Nat.add_sub_cancel_left] at hno
        have := hl.stored (.block (NDIRECT + k))
        rw [show (s.icache ip).d.stored s.disk (.block (NDIRECT + k)) = _ from hno] at this
        exact this hk
      · have hheld : t.buf (s.icache ip).d.indirect = some p := by
          rw [hbuf]
          exact FsState.buf_setBuf ..
        refine guarded_bind.mpr (guarded_doAct (.brelse _) hheld ?_)
        rintro _ _ ⟨-, rfl⟩
        have hback : (t.setBuf (s.icache ip).d.indirect none).buf = s.buf := by
          show update t.buf _ none = s.buf
          rw [hbuf]
          exact congrArg FsState.buf (FsState.setBuf_setBuf hfree (some p))
        have hidle' : Only p (t.setBuf (s.icache ip).d.indirect none) none := fun m hm =>
          hidle m (by rwa [hback] at hm)
        refine guarded_bind.mpr (guarded_bfree_file (s := t.setBuf _ none) ht (by rw [hX']; nofun)
          hidle' (by nofun) (by nofun) (guarded_setInode ?_))
        have hcache : (t.setCopy ip ((s.icache ip).d.setAddr 12 0)).icache =
            (s.setCopy ip ((s.icache ip).d.setAddr 12 0)).icache := by
          show update t.icache ip _ = update s.icache ip _
          rw [hic]
          rfl
        refine ⟨⟨update own' (s.icache ip).d.indirect .free, ?_⟩, hidle', ?_, ?_⟩
        · have hfreed := ht.bfreeSlot huse'.ref hinum hX' hind
          rw [← hcache] at hfreed
          exact hfreed
        · exact ⟨hcache ▸ huse'.ref, hcache ▸ huse'.valid⟩
        · exact hcache ▸ hinum

/-- `iupdate` of the inode that is freed ends the exception. -/
theorem guarded_iupdate_freeing (h : Freeing V sb p ip i s) :
    Guarded p (iupdate ip) (fun _ t => Sound V sb p t ∧ t.InUse ip) s := by
  obtain ⟨⟨own, ho⟩, hidle, huse, rfl⟩ := h
  refine guarded_iupdate hidle ⟨⟨⟨own, ?_⟩, hidle⟩, ⟨huse.ref, huse.valid⟩⟩
  exact ho.writeDinode (ho.range ip huse.ref) (fun j hj => (Option.some.inj hj).symm)
    fun _ => ho.lists_slot huse

/-- **`itrunc`**. -/
theorem guarded_itrunc (h : Sound V sb p s) (hip : s.InUse ip) :
    Guarded p (itrunc ip) (fun _ t => Sound V sb p t ∧ t.InUse ip) s := by
  obtain ⟨⟨own, ho⟩, hidle⟩ := h
  have hstart : Freeing V sb p ip (s.icache ip).inum s := ⟨⟨own, ho.excuse _⟩, hidle, hip, rfl⟩
  refine (guarded_itruncDirect _ hstart).bind fun _ _ h₁ =>
    (guarded_itruncIndirect h₁).bind fun _ t h₂ => guarded_bind.mpr (guarded_inode ?_)
  refine guarded_bind.mpr (guarded_setInode (guarded_iupdate_freeing (i := (s.icache ip).inum) ?_))
  obtain ⟨⟨own', ho'⟩, hidle', huse', hinum⟩ := h₂
  have hsame : Lists V own' t.disk (t.icache ip).inum { (t.icache ip).d with size := 0 } :=
    (ho'.lists_slot huse').drop (fun _ => .inr rfl) fun h => h
  exact ⟨⟨own', ho'.setCopy hsame⟩, hidle', huse'.setCopy _, (inum_setCopy ..).trans hinum⟩

/-! ## References and locks -/

/-- A change of a slot that keeps its inode. -/
theorem Sound.modify (h : Sound V sb p s) {x : Inode} (hinum : x.inum = (s.icache ip).inum)
    (href : 0 < x.ref → 0 < (s.icache ip).ref)
    (hd : x.valid = true → (s.icache ip).valid = true ∧ x.d = (s.icache ip).d) :
    Sound V sb p (s.setIno ip x) := by
  obtain ⟨⟨own, ho⟩, hidle⟩ := h
  refine ⟨⟨own, ho.modify hinum href fun hr hv => ?_⟩, hidle⟩
  rw [hinum, (hd hv).2]
  exact ho.lists_slot ⟨href hr, (hd hv).1⟩

/-- `iget` of an inode of the file system. -/
theorem Sound.iget (h : Sound V sb p s) (hi : i < sb.ninodes) (hget : s.iget i = some (ip, t)) :
    Sound V sb p t := by
  rcases FsState.iget_cases hget with ⟨href, hinum, rfl⟩ | ⟨href, hnone, rfl⟩
  · exact h.modify rfl (fun _ => href) fun hv => ⟨hv, rfl⟩
  · obtain ⟨⟨own, ho⟩, hidle⟩ := h
    exact ⟨⟨own, ho.setIno (fun _ => hi) (fun _ ip' _ href' => hnone ip' href') (by nofun)⟩, hidle⟩

theorem inUse_iget {q : Slot} (hip : s.InUse ip) (hget : s.iget i = some (q, t)) : t.InUse ip := by
  have hother {x : Inode} (hne : ip ≠ q) : (s.setIno q x).InUse ip := by
    have hsame : (s.setIno q x).icache ip = s.icache ip := update_of_ne hne ..
    exact ⟨by rw [hsame]; exact hip.ref, by rw [hsame]; exact hip.valid⟩
  rcases FsState.iget_cases hget with ⟨-, -, rfl⟩ | ⟨href, -, rfl⟩
  · by_cases hne : ip = q
    · subst hne
      have hself (x : Inode) : (s.setIno ip x).icache ip = x := update_self ..
      refine ⟨?_, ?_⟩
      · rw [hself]
        exact Int.lt_add_one_of_le hip.ref.le
      · rw [hself]
        exact hip.valid
    · exact hother hne
  · exact hother fun heq => absurd (heq ▸ hip.ref) (by rw [href]; decide)

theorem guarded_iunlock (h : Sound V sb p s) :
    Guarded p (iunlock ip) (fun _ => Sound V sb p) s := by
  refine guarded_doAct (.iunlock ip) trivial ?_
  rintro _ _ ⟨-, -, rfl⟩
  exact h.modify rfl (fun hr => hr) fun hv => ⟨hv, rfl⟩

/-- **`iput`**. -/
theorem guarded_iput (h : Sound V sb p s) : Guarded p (iput ip) (fun _ => Sound V sb p) s := by
  refine guarded_bind.mpr (guarded_doAct (.iputTest ip) trivial fun b t hstep => ?_)
  have htest : s.iputTest p ip = some (b, t) := hstep
  unfold FsState.iputTest at htest
  split at htest
  · next hlast =>
      split at htest
      · cases htest
      · cases htest
        simp only [FsState.lastRef, Bool.and_eq_true, decide_eq_true_eq] at hlast
        have hself (x : Inode) : (s.setIno ip x).icache ip = x := update_self ..
        have hsound : Sound V sb p (s.setIno ip { s.icache ip with busy := some p }) :=
          h.modify rfl (fun hr => hr) fun hv => ⟨hv, rfl⟩
        have huse : (s.setIno ip { s.icache ip with busy := some p }).InUse ip :=
          ⟨by rw [hself]; show 0 < (s.icache ip).ref; omega, by rw [hself]; exact hlast.1.2⟩
        refine (guarded_itrunc hsound huse).bind fun _ u hu => guarded_bind.mpr (guarded_inode ?_)
        obtain ⟨⟨⟨own, ho⟩, hidle⟩, huse⟩ := hu
        -- the inode becomes a free one, first in the cache and then on the disk
        have hfree : Lists V own u.disk (u.icache ip).inum { (u.icache ip).d with type := 0 } :=
          (ho.lists_slot huse).drop (fun _ => .inr rfl)
            fun h => absurd (show (0 : Int16) = T_DIR from h) (by decide)
        refine guarded_bind.mpr (guarded_setInode (guarded_bind.mpr ?_))
        have hfreeing : Freeing V sb p ip (u.icache ip).inum (u.setCopy ip _) :=
          ⟨⟨own, (ho.setCopy hfree).excuse _⟩, hidle, huse.setCopy _, inum_setCopy ..⟩
        refine (guarded_iupdate_freeing hfreeing).mono fun _ v hv => ?_
        refine guarded_doAct (.iputFreed ip) trivial ?_
        rintro _ _ rfl
        exact hv.1.modify rfl (fun _ => hv.2.ref) (by rintro ⟨⟩)
  · cases htest
    exact h.modify rfl (fun hr => by
      have : 0 < (s.icache ip).ref - 1 := hr
      omega) fun hv => ⟨hv, rfl⟩

theorem guarded_iunlockput (h : Sound V sb p s) :
    Guarded p (iunlockput ip) (fun _ => Sound V sb p) s :=
  (guarded_iunlock h).bind fun _ _ => guarded_iput

/-- The inode is read from the disk into its slot. -/
theorem sound_load (ho : Owned V own sb none s.disk s.icache) (hidle : Only p s none)
    (href : 0 < (s.icache ip).ref) (hvalid : ¬ (s.icache ip).valid = true) {d : Dinode}
    (hd : Lists V own s.disk (s.icache ip).inum d) :
    Sound V sb p ((s.setCopy ip d).setIno ip { (s.setCopy ip d).icache ip with valid := true }) ∧
      ((s.setCopy ip d).setIno ip { (s.setCopy ip d).icache ip with valid := true }).InUse ip := by
  have hself (x : Inode) : ((s.setCopy ip d).setIno ip x).icache ip = x := update_self ..
  have hcopy := icache_setCopy s ip d
  have hread : Owned V own sb none s.disk (s.setCopy ip d).icache :=
    ho.modify rfl (fun hr => hr) fun _ hv => absurd hv hvalid
  refine ⟨⟨⟨own, hread.modify rfl (fun hr => hr) fun _ _ => ?_⟩, hidle⟩, ?_, ?_⟩
  · show Lists V own s.disk ((s.setCopy ip d).icache ip).inum ((s.setCopy ip d).icache ip).d
    rw [hcopy]
    exact hd
  · rw [hself]
    show 0 < ((s.setCopy ip d).icache ip).ref
    rw [hcopy]
    exact href
  · rw [hself]

/-- **`ilock`**. -/
theorem guarded_ilock (h : Sound V sb p s) :
    Guarded p (ilock ip) (fun _ t => Sound V sb p t ∧ t.InUse ip) s := by
  refine guarded_bind.mpr (guarded_doAct (.ilockBusy ip) trivial ?_)
  rintro _ t ⟨href, -, rfl⟩
  have hlocked : Sound V sb p (s.setIno ip { s.icache ip with busy := some p }) :=
    h.modify rfl (fun hr => hr) fun hv => ⟨hv, rfl⟩
  have hself : (s.setIno ip { s.icache ip with busy := some p }).icache ip =
    { s.icache ip with busy := some p } := update_self ..
  generalize s.setIno ip { s.icache ip with busy := some p } = t at hlocked hself
  have href' : 0 < (t.icache ip).ref := by
    rw [hself]
    exact href
  refine guarded_bind.mpr (guarded_inode ?_)
  split
  · next hvalid => exact ⟨hlocked, href', hvalid⟩
  · next hvalid =>
      obtain ⟨⟨own, ho⟩, hidle⟩ := hlocked
      refine guarded_bind.mpr (guarded_bread hidle (by nofun) fun hfree => ?_)
      refine guarded_bind.mpr (guarded_setInode (guarded_bind.mpr
        (guarded_brelse (s := t.setCopy ip _) hfree (guarded_bind.mpr ?_))))
      refine guarded_doAct (.setValid ip) trivial ?_
      rintro _ u rfl
      split
      · exact trivial
      · next htype =>
          exact sound_load ho hidle href' hvalid
            (ho.lists _ _ (.disk (ho.range ip href') (by nofun) htype))

end Xv6.Fs

import Xv6.Fs.Careful

/-! # Contents, directories and paths are handled carefully

The upper half of `fs.c` over block ownership: reading and writing contents, looking up and entering
names, and walking along paths. Directory entries in use name inodes of the file system, so that
what a walk reads as an inode is one. -/

namespace Xv6.Fs

open Lib Prog

variable {V : Block → Prop} {sb : Superblock} {p : Pid} {s t : FsState} {ip : Slot}

/-! ## Contents -/

/-- After `bmap`: the block returned belongs to the inode. -/
structure Mapped (V : Block → Prop) (sb : Superblock) (p : Pid) (ip : Slot) (bn b : Nat)
    (t : FsState) : Prop where
  owned : ∃ own, Owned V own sb none t.disk t.icache ∧ own b = .file (t.icache ip).inum (.block bn)
  idle : Only p t none
  use : t.InUse ip
  entries : (t.icache ip).d.type = T_DIR → V (t.disk b)

theorem Mapped.sound {bn b : Nat} (h : Mapped V sb p ip bn b t) : Sound V sb p t := by
  obtain ⟨own, ho, -⟩ := h.owned
  exact ⟨⟨own, ho⟩, h.idle⟩

theorem guarded_bmap_mapped (hV : V Bytes.zero) (h : Sound V sb p s) (hip : s.InUse ip) {bn : Nat} :
    Guarded p (bmap ip bn) (fun b t => Mapped V sb p ip bn b t ∧
      (t.icache ip).d.type = (s.icache ip).d.type) s := by
  obtain ⟨⟨own, ho⟩, hidle⟩ := h
  refine guarded_bmap hV ho hip hidle fun b t hmaps => ?_
  obtain ⟨own', ho', rfl, hne⟩ := hmaps.owned hV ho hip
  obtain ⟨hbuf, d, htype, -, hic⟩ := hmaps.frame
  have hl := ho'.lists_slot (hmaps.inUse hip)
  refine ⟨⟨⟨own', ho', hl.stored (.block bn) hne⟩, ?_, hmaps.inUse hip, ?_⟩, ?_⟩
  · intro m hm
    exact hidle m (by rwa [hbuf] at hm)
  · exact fun hdir => hl.entries hdir bn hne
  · rw [hic, Function.update_self]
    exact htype

/-- An action that leaves the state as it is. -/
theorem guarded_still (a : Act) (ha : a.Careful p s) (hstep : ∀ b t, a.step p s b t → t = s)
    {Q : a.Resp → FsState → Prop} (hQ : ∀ b, Q b s) : Guarded p (doAct a) Q s :=
  guarded_doAct a ha fun b t h => by
    rw [hstep b t h]
    exact hQ b

theorem guarded_store (dst : Dst) {o : Nat} {bytes : List UInt8} {Q : Unit → FsState → Prop}
    (hQ : Q () s) : Guarded p (dst.store o bytes) Q s := by
  cases dst with
  | kernel => exact hQ
  | user addr => exact guarded_still (.uwrite _ _) trivial (fun _ _ h => h) fun _ => hQ

theorem guarded_fetch (src : Src) {o m : Nat} {Q : List UInt8 → FsState → Prop}
    (hQ : ∀ bs, Q bs s) : Guarded p (src.fetch o m) Q s := by
  cases src with
  | kernel bytes => exact hQ _
  | user addr =>
      exact guarded_bind.mpr (guarded_still (.uread _ m) trivial (fun _ _ h => h) fun _ => hQ _)

theorem guarded_consolereadLoop (dst : Dst) {target n : Nat} {acc : List UInt8}
    {Q : Option Nat × List UInt8 → FsState → Prop} (hQ : ∀ r, Q r s) :
    Guarded p (consolereadLoop dst target n acc) Q s := by
  induction n generalizing acc with
  | zero => exact hQ _
  | succ n ih =>
      refine guarded_bind.mpr (guarded_still .inputWait trivial (fun _ _ h => h) fun ready => ?_)
      split
      · refine guarded_bind.mpr (guarded_still .inputGet trivial (fun _ _ h => h) fun c => ?_)
        split
        · refine guarded_bind.mpr ?_
          split
          · exact guarded_still .inputUnget trivial (fun _ _ h => h) fun _ => hQ _
          · exact hQ _
        · refine guarded_bind.mpr (guarded_store dst ?_)
          split
          · exact hQ _
          · exact ih
      · exact hQ _

theorem guarded_consolewriteLoop (src : Src) {n i : Nat} {Q : Unit → FsState → Prop}
    (hQ : Q () s) : Guarded p (consolewriteLoop src n i) Q s := by
  induction n generalizing i with
  | zero => exact hQ
  | succ n ih =>
      refine guarded_bind.mpr (guarded_fetch src fun bs => ?_)
      exact guarded_bind.mpr (guarded_still (.consputc _) trivial (fun _ _ h => h) fun _ => ih)

/-- The console's entries of `devsw` unlock the inode and lock it again. -/
theorem guarded_console {α β : Type} (h : Sound V sb p s) (lk : Lock) {body : FsProg α}
    (hbody : ∀ t, ∀ Q : α → FsState → Prop, (∀ r, Q r t) → Guarded p body Q t)
    {k : α → FsProg β} (hk : ∀ r t, Sound V sb p t → t.InUse ip →
      Guarded p (k r) (fun _ t => Sound V sb p t ∧ t.InUse ip) t) :
    Guarded p (do
      iunlock ip
      acquire lk
      let r ← body
      release lk
      ilock ip
      k r) (fun _ t => Sound V sb p t ∧ t.InUse ip) s := by
  refine (guarded_iunlock h).bind fun _ t ht => ?_
  refine guarded_bind.mpr (guarded_still (.acquire lk) trivial (fun _ _ h => h) fun _ => ?_)
  refine guarded_bind.mpr (hbody t _ fun r => ?_)
  refine guarded_bind.mpr (guarded_still (.release lk) trivial (fun _ _ h => h) fun _ => ?_)
  exact (guarded_ilock ht).bind fun _ u hu => hk r u hu.1 hu.2

theorem guarded_readiLoop (hV : V Bytes.zero) (dst : Dst) {n fuel tot off : Nat} {acc : List UInt8}
    (h : Sound V sb p s) (hip : s.InUse ip) :
    Guarded p (readiLoop ip dst n fuel tot off acc) (fun _ t => Sound V sb p t ∧ t.InUse ip) s := by
  induction fuel generalizing s tot off acc with
  | zero => exact ⟨h, hip⟩
  | succ fuel ih =>
      unfold readiLoop
      split
      · refine (guarded_bmap_mapped hV h hip).bind fun b t ht => ?_
        refine guarded_bind.mpr (guarded_bread ht.1.idle (by nofun) fun hfree => ?_)
        exact guarded_bind.mpr (guarded_store dst (guarded_bind.mpr
          (guarded_brelse hfree (ih ht.1.sound ht.1.use))))
      · exact ⟨h, hip⟩

/-- **`readi`**. -/
theorem guarded_readi (hV : V Bytes.zero) (dst : Dst) {off n : Nat} (h : Sound V sb p s)
    (hip : s.InUse ip) :
    Guarded p (readi ip dst off n) (fun _ t => Sound V sb p t ∧ t.InUse ip) s := by
  refine guarded_bind.mpr (guarded_inode ?_)
  split
  · split
    · refine guarded_console h .input
        (fun t Q hQ => guarded_consolereadLoop (s := t) dst hQ) fun r t ht hu => ?_
      obtain ⟨left, bytes⟩ := r
      cases left with
      | none => exact ⟨ht, hu⟩
      | some left => exact ⟨ht, hu⟩
    · exact ⟨h, hip⟩
  · split
    · exact ⟨h, hip⟩
    · exact (guarded_readiLoop hV dst h hip).bind fun _ _ ht => ht

/-- A write of data, in a file system without a condition on directories. -/
theorem Mapped.write {bn b : Nat} (h : Mapped (fun _ => True) sb p ip bn b t) (data : Block) :
    Sound (fun _ => True) sb p (t.write b data) := by
  obtain ⟨own, ho, hb⟩ := h.owned
  exact ⟨⟨own, ho.write hb trivial⟩, h.idle⟩

theorem guarded_writeiLoop (src : Src) {n fuel tot off : Nat} (h : Sound (fun _ => True) sb p s)
    (hip : s.InUse ip) :
    Guarded p (writeiLoop ip src n fuel tot off)
      (fun _ t => Sound (fun _ => True) sb p t ∧ t.InUse ip) s := by
  induction fuel generalizing s tot off with
  | zero => exact ⟨h, hip⟩
  | succ fuel ih =>
      unfold writeiLoop
      split
      · refine (guarded_bmap_mapped trivial h hip).bind fun b t ht => ?_
        refine guarded_bind.mpr (guarded_bread ht.1.idle (by nofun) fun hfree => ?_)
        refine guarded_bind.mpr (guarded_fetch src fun bs => ?_)
        exact guarded_bind.mpr (guarded_bwrite (guarded_bind.mpr
          (guarded_brelse (s := t.write b _) hfree
            (ih (ht.1.write _) ⟨ht.1.use.ref, ht.1.use.valid⟩))))
      · exact ⟨h, hip⟩

/-- `writei` writes the bytes, and then the size if the file has grown. -/
theorem guarded_writeiEnd (src : Src) {off m : Nat} (h : Sound (fun _ => True) sb p s)
    (hip : s.InUse ip) :
    Guarded p (do
      let off ← writeiLoop ip src m m 0 off
      let x ← inode ip
      if 0 < m ∧ off > x.d.size.toNat then do
        setInode ip { x.d with size := UInt32.ofNat off }
        iupdate ip
        pure (toInt m)
      else pure (toInt m)) (fun _ t => Sound (fun _ => True) sb p t ∧ t.InUse ip) s := by
  refine (guarded_writeiLoop src h hip).bind fun off' t ht => ?_
  refine guarded_bind.mpr (guarded_inode ?_)
  split
  · obtain ⟨⟨⟨own, ho⟩, hidle⟩, huse⟩ := ht
    have hsame : Lists (fun _ => True) own t.disk (t.icache ip).inum
        { (t.icache ip).d with size := UInt32.ofNat off' } :=
      (ho.lists_slot huse).drop (fun _ => .inr rfl) fun h => h
    refine guarded_bind.mpr (guarded_setInode ?_)
    exact (guarded_iupdate_freeing (i := (t.icache ip).inum)
      ⟨⟨own, (ho.setCopy hsame).excuse _⟩, hidle, huse.setCopy _, inum_setCopy ..⟩).bind
        fun _ _ hu => hu
  · exact ht

/-- **`writei`**. -/
theorem guarded_writei (src : Src) {off n : Nat} (h : Sound (fun _ => True) sb p s)
    (hip : s.InUse ip) :
    Guarded p (writei ip src off n) (fun _ t => Sound (fun _ => True) sb p t ∧ t.InUse ip) s := by
  refine guarded_bind.mpr (guarded_inode ?_)
  split
  · split
    · exact guarded_console h .cons (fun t Q hQ => guarded_consolewriteLoop (s := t) src (hQ ()))
        fun _ _ ht hu => ⟨ht, hu⟩
    · exact ⟨h, hip⟩
  · split
    · exact ⟨h, hip⟩
    · exact guarded_writeiEnd src h hip

/-! ## Directories -/

/-- The entries of a directory block name inodes of the file system. -/
def EntriesIn (sb : Superblock) (b : Block) : Prop := ∀ k, (direntAt b k).inum < sb.ninodes

theorem entriesIn_zero (hsb : 0 < sb.ninodes) : EntriesIn sb Bytes.zero := by
  intro k
  have hinum : (direntAt Bytes.zero k).inum = 0 := by
    simp [direntAt, direntOf, le16, slice, DIRENT]
  rw [hinum]
  exact hsb

theorem guarded_dirlookupLoop (name : List UInt8) {n bn : Nat} (h : Sound (EntriesIn sb) sb p s)
    (hip : s.InUse ip) (hdir : (s.icache ip).d.type = T_DIR) :
    Guarded p (dirlookupLoop ip name n bn)
      (fun _ t => Sound (EntriesIn sb) sb p t ∧ t.InUse ip) s := by
  have hsb : 0 < sb.ninodes := by
    obtain ⟨own, ho⟩ := h.owned
    exact Nat.lt_of_le_of_lt (Nat.zero_le _) ho.root
  induction n generalizing s bn with
  | zero => exact ⟨h, hip⟩
  | succ n ih =>
      refine (guarded_bmap_mapped (entriesIn_zero hsb) h hip).bind fun b t ht => ?_
      refine guarded_bind.mpr (guarded_bread ht.1.idle (by nofun) fun hfree => ?_)
      have hdir' := ht.2.trans hdir
      split
      · next k hk =>
          refine guarded_bind.mpr (guarded_brelse hfree (guarded_bind.mpr
            (guarded_iget fun q u hget => ?_)))
          exact ⟨ht.1.sound.iget (ht.1.entries hdir' k) hget, inUse_iget ht.1.use hget⟩
      · exact guarded_bind.mpr (guarded_brelse hfree (ih ht.1.sound ht.1.use hdir'))

/-- **`dirlookup`**. -/
theorem guarded_dirlookup (name : List UInt8) (h : Sound (EntriesIn sb) sb p s)
    (hip : s.InUse ip) :
    Guarded p (dirlookup ip name) (fun _ t => Sound (EntriesIn sb) sb p t ∧ t.InUse ip) s := by
  refine guarded_bind.mpr (guarded_inode ?_)
  split
  · next hdir => exact guarded_dirlookupLoop name h hip hdir
  · exact trivial

theorem guarded_findEmpty (hV : V Bytes.zero) {n off : Nat} (h : Sound V sb p s)
    (hip : s.InUse ip) :
    Guarded p (findEmpty ip n off) (fun _ t => Sound V sb p t ∧ t.InUse ip) s := by
  induction n generalizing s off with
  | zero => exact ⟨h, hip⟩
  | succ n ih =>
      refine (guarded_readi hV .kernel h hip).bind fun r t ht => ?_
      obtain ⟨r, bytes⟩ := r
      dsimp only
      split
      · exact trivial
      · split
        · exact ht
        · exact ih ht.1 ht.2

/-- A file system without the condition on directories. -/
theorem Sound.forget (h : Sound V sb p s) : Sound (fun _ => True) sb p s := by
  obtain ⟨⟨own, ho⟩, hidle⟩ := h
  exact ⟨⟨own, ho.weaken fun _ _ => trivial⟩, hidle⟩

/-- **`dirlink`**. -/
theorem guarded_dirlink (name : List UInt8) (inum : Nat) (h : Sound (EntriesIn sb) sb p s)
    (hip : s.InUse ip) : Guarded p (dirlink ip name inum) (fun _ t => Only p t none) s := by
  refine (guarded_dirlookup name h hip).bind fun found t ht => ?_
  split
  · exact (guarded_iput ht.1).bind fun _ _ hu => hu.idle
  · refine guarded_bind.mpr (guarded_inode ?_)
    refine (guarded_findEmpty (V := fun _ => True) trivial ht.1.forget ht.2).bind fun off u hu => ?_
    refine (guarded_writei _ hu.1 hu.2).bind fun r v hv => ?_
    split
    · exact trivial
    · exact hv.1.idle

/-! ## Paths -/

theorem guarded_namexLoop {nameiparent : Bool} {fuel : Nat} {path last : List UInt8}
    (h : Sound (EntriesIn sb) sb p s) :
    Guarded p (namexLoop nameiparent fuel ip path last)
      (fun _ => Sound (EntriesIn sb) sb p) s := by
  induction fuel generalizing s ip path last with
  | zero => exact h
  | succ fuel ih =>
      unfold namexLoop
      split
      · split
        · exact (guarded_iput h).bind fun _ _ ht => ht
        · exact h
      · refine (guarded_ilock h).bind fun _ t ht => guarded_bind.mpr (guarded_inode ?_)
        split
        · exact (guarded_iunlockput ht.1).bind fun _ _ hu => hu
        · split
          · exact (guarded_iunlock ht.1).bind fun _ _ hu => hu
          · refine (guarded_dirlookup _ ht.1 ht.2).bind fun next u hu => ?_
            split
            · exact (guarded_iunlockput hu.1).bind fun _ _ hv => hv
            · exact (guarded_iunlockput hu.1).bind fun _ _ hv => ih hv

/-- **`namex`**, if the current directory is referenced. -/
theorem guarded_namex {path : List UInt8} {nameiparent : Bool} (h : Sound (EntriesIn sb) sb p s)
    (hcwd : ∀ ip, s.cwd p = some ip → 0 < (s.icache ip).ref) :
    Guarded p (namex path nameiparent) (fun _ => Sound (EntriesIn sb) sb p) s := by
  refine guarded_bind.mpr ?_
  unfold namexStart
  split
  · obtain ⟨own, ho⟩ := h.owned
    exact guarded_iget fun ip t hget => guarded_namexLoop (h.iget ho.root hget)
  · refine guarded_bind.mpr (guarded_doAct .cwd trivial ?_)
    rintro ip t ⟨hip, rfl⟩
    refine guarded_bind.mpr (guarded_doAct (.idup ip) trivial ?_)
    rintro _ t rfl
    exact guarded_namexLoop (h.modify rfl (fun _ => hcwd ip hip) fun hv => ⟨hv, rfl⟩)

end Xv6.Fs

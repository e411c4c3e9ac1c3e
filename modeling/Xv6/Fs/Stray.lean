import Xv6.Fs.Confine
import Mathlib.Tactic.NormNum

/-! # Stray accesses of `sys_read` and `sys_write`

Exactly when a call touches user memory outside the buffer it was given: the length is negative, the
argument check of `argptr` still passes, and the file is a regular inode whose offset lets `readi` or
`writei` start a transfer. -/

namespace Xv6.Fs

open Lib Prog

/-- An `int` survives the way through `uint`. -/
theorem toInt_toUint {n : Int} (hlo : -2147483648 ≤ n) (hhi : n < 2147483648) :
    toInt (toUint n) = n := by
  unfold toInt toUint
  rw [Int.toNat_of_nonneg (by omega),
    show (4294967296 : Int) = ((4294967296 : Nat) : Int) by norm_num, Int.emod_bmod]
  refine Int.bmod_eq_of_le ?_ ?_
  · norm_num
    exact hlo
  · norm_num
    exact hhi

theorem toUint_lt (n : Int) : toUint n < 4294967296 := by
  rw [toUint]
  omega

/-! ## Calls that stay inside -/

section Inside

variable {sz p : Nat} {n : Int}

variable {v : View}

/-- An action whose answers leave the view as it is. -/
theorem wp_doAct {a : Act} {Q : a.Resp → View → Prop} (ha : Confined sz p n a)
    (hQ : ∀ b v', answers a v b v' → Q b v') :
    wp (insideSpec sz p n) (fun _ => True) (doAct a) Q v := ⟨ha, hQ⟩

theorem wp_inode (ip : Slot) {Q : Inode → View → Prop}
    (hQ : ∀ x : Inode, x.inum = v.inum → x.valid = v.valid → (v.valid = true → x.d = v.d) → Q x v) :
    wp (insideSpec sz p n) (fun _ => True) (inode ip) Q v := by
  refine wp_doAct trivial fun x v' hx => ?_
  obtain ⟨hinum, hvalid, hd, rfl⟩ := hx
  exact hQ x hinum hvalid hd

theorem wp_file (f : Fid) {Q : File → View → Prop} (hQ : Q v.file v) :
    wp (insideSpec sz p n) (fun _ => True) (file f) Q v := by
  refine wp_doAct trivial fun x v' hx => ?_
  obtain ⟨rfl, rfl⟩ := hx
  exact hQ

/-- Reading the inode from the disk while the copy is not valid. -/
theorem wp_load (ip : Slot) {inum : Nat} {Q : Unit → View → Prop} (hinum : inum = v.inum)
    (hval : v.valid = false) (hQ : v.d.type ≠ 0 → Q () { v with valid := true }) :
    wp (insideSpec sz p n) (fun _ => True) (do
      let bp ← bread (IBLOCK inum)
      setInode ip (dinodeAt bp inum)
      brelse (IBLOCK inum)
      setValid ip
      if (dinodeAt bp inum).type = 0 then Prog.panic "ilock: no type" else pure ()) Q v := by
  rw [wp_bind]
  refine wp_doAct trivial fun bp v₀ hbp => ?_
  obtain ⟨hbp, rfl⟩ := hbp
  have hload : dinodeAt bp inum = v₀.d := by
    rw [hinum]
    exact hbp hval (by rw [hinum])
  rw [wp_bind]
  refine wp_doAct trivial fun _ v₁ hv₁ => ?_
  obtain rfl : v₁ = v₀ := by simpa [answers, hval] using hv₁
  rw [wp_bind]
  refine wp_doAct trivial fun _ v₂ hv₂ => ?_
  obtain rfl : v₂ = v₁ := hv₂
  rw [wp_bind]
  refine wp_doAct trivial fun _ v₃ hv₃ => ?_
  obtain rfl : v₃ = { v₂ with valid := true } := hv₃
  rw [hload]
  split
  · trivial
  · rename_i htype
    exact hQ htype

/-- `ilock` changes nothing of the view but that the inode is read, and stops at a free inode. -/
theorem wp_ilock (ip : Slot) {Q : Unit → View → Prop}
    (hQ : v.valid = true ∨ v.d.type ≠ 0 → Q () { v with valid := true }) :
    wp (insideSpec sz p n) (fun _ => True) (ilock ip) Q v := by
  rw [ilock, wp_bind]
  refine wp_doAct trivial fun _ v' hv' => ?_
  obtain rfl : v' = v := hv'
  rw [wp_bind]
  refine wp_inode ip fun x hinum hvalid _ => ?_
  cases hval : v'.valid with
  | true =>
      rw [if_pos (hvalid.trans hval), wp_pure]
      have hsame : { v' with valid := true } = v' := by rw [← hval]
      rw [← hsame]
      exact hQ (.inl hval)
  | false =>
      rw [if_neg (by simp [hvalid, hval])]
      exact wp_load ip hinum hval fun htype => hQ (.inr htype)

/-- Every transfer of a file stays inside if the transfers from and to pipes do, and those from and
to the inode do in the state in which they start. -/
theorem wp_filexfer (f : Fid) {mode : File → Bool} {pipexfer : Nat → FsProg Int}
    {ixfer : Slot → Nat → FsProg Int} {msg : String} {Q : Int → View → Prop} (hQ : ∀ r v', Q r v')
    (hpipe : ∀ q, Harmless sz p n (pipexfer q))
    (hinode : mode v.file = true → v.file.type = .inode → (v.valid = true ∨ v.d.type ≠ 0) →
      wp (insideSpec sz p n) (fun _ => True) (ixfer v.file.ip v.file.off) (fun _ _ => True)
        { v with valid := true }) :
    wp (insideSpec sz p n) (fun _ => True) (filexfer f mode pipexfer ixfer msg) Q v := by
  rw [filexfer, wp_bind]
  refine wp_file f ?_
  by_cases hmode : mode v.file = false
  · rw [if_pos hmode]
    exact hQ _ _
  rw [if_neg hmode]
  cases htype : v.file.type with
  | none => trivial
  | pipe => exact hpipe _ _ _ hQ
  | inode =>
      simp only [wp_bind]
      refine wp_ilock _ fun hd => wp_file f ?_
      refine wp_mono (monotone_demonic _) (fun r v₁ _ => ?_)
        (hinode (by simpa using hmode) htype hd)
      exact harmless_advance f _ r _ _ fun _ _ => harmless_iunlock _ _ _ fun _ _ => hQ _ _

/-- A call stays inside if its file transfer does whenever the argument checks pass. -/
theorem wp_sysxfer {xfer : Fid → Nat → Int → FsProg Int} {fd q : Int} {Q : Int → View → Prop}
    (hQ : ∀ r v', Q r v')
    (h : ∀ f, 0 ≤ fd ∧ fd < NOFILE → toUint q < v.sz →
      (toUint q + toUint n) % 4294967296 < v.sz →
      wp (insideSpec sz p n) (fun _ => True) (xfer f (toUint q) n) Q v) :
    wp (insideSpec sz p n) (fun _ => True) (sysxfer xfer fd q n) Q v := by
  rw [sysxfer, wp_bind, argfd]
  split
  · rename_i hfd
    rw [wp_bind]
    refine wp_doAct trivial fun o v' hv' => ?_
    obtain rfl : v' = v := hv'
    cases o with
    | none => exact hQ _ _
    | some f =>
        simp only [Option.map_some, wp_pure, argptr, wp_bind]
        refine wp_doAct trivial fun x v'' hx => ?_
        obtain ⟨rfl, rfl⟩ := hx
        by_cases hchk : toUint q ≥ v''.sz ∨ (toUint q + toUint n) % 4294967296 ≥ v''.sz
        · rw [if_pos hchk]
          exact hQ _ _
        · rw [if_neg hchk]
          exact h f hfd (by omega) (by omega)
  · exact hQ _ _

/-- With a negative length `readi` transfers nothing unless the offset lets its loop start. -/
theorem wp_readi_neg (ip : Slot) {off : Nat} (hval : v.valid = true) (hfit : p ≤ sz)
    (hsz : sz ≤ 2147483648) (hn : n < 0) (hrange : -2147483648 ≤ n)
    (hstray : v.d.type ≠ T_DEV → off < v.d.size.toNat → off + toUint n < 4294967296 →
      ¬off / BSIZE < MAXFILE) :
    wp (insideSpec sz p n) (fun _ => True) (readi ip (.user p) off (toUint n)) (fun _ _ => True)
      v := by
  have hback : toInt (toUint n) = n := toInt_toUint hrange (by omega)
  have hbig : 2147483648 ≤ toUint n := by rw [toUint]; omega
  rw [readi, wp_bind]
  refine wp_inode ip fun x _ _ hd => ?_
  rw [hd hval]
  by_cases hdev : v.d.type = T_DEV
  · rw [if_pos hdev]
    split
    · rw [hback]
      exact harmless_consoleread (by omega) hsz ip _ _ fun _ _ => trivial
    · trivial
  rw [if_neg hdev]
  split
  · trivial
  rename_i hoff
  have hsize := v.d.size.toNat_lt
  have hlt := toUint_lt n
  by_cases hend : off < v.d.size.toNat
  · have hbn : MAXFILE ≤ off / BSIZE := by
      have := hstray hdev hend (by omega)
      omega
    exact Harmless.bind (harmless_readiLoop_outOfRange ip _ _ _ _ hbn) (fun _ => .pure _) _ _
      fun _ _ => trivial
  · -- at the end of the file the length is cut to zero
    rw [wp_bind, if_pos (by omega), show v.d.size.toNat - off = 0 by omega]
    trivial

/-- With a negative length `writei` transfers nothing unless the offset lets its loop start. -/
theorem wp_writei_neg (ip : Slot) {off : Nat} (hval : v.valid = true) (hfit : p ≤ sz)
    (hsz : sz ≤ 2147483648) (hn : n < 0) (hrange : -2147483648 ≤ n)
    (hstray : v.d.type ≠ T_DEV → off ≤ v.d.size.toNat → off + toUint n < 4294967296 →
      ¬off < MAXFILE * BSIZE) :
    wp (insideSpec sz p n) (fun _ => True) (writei ip (.user p) off (toUint n)) (fun _ _ => True)
      v := by
  have hback : toInt (toUint n) = n := toInt_toUint hrange (by omega)
  have hbig : 2147483648 ≤ toUint n := by rw [toUint]; omega
  rw [writei, wp_bind]
  refine wp_inode ip fun x _ _ hd => ?_
  rw [hd hval]
  by_cases hdev : v.d.type = T_DEV
  · rw [if_pos hdev]
    split
    · rw [hback]
      exact harmless_consolewrite (by omega) hsz ip _ _ fun _ _ => trivial
    · trivial
  rw [if_neg hdev]
  split
  · trivial
  rename_i hoff
  have hsize := v.d.size.toNat_lt
  have hlt := toUint_lt n
  have hmax : MAXFILE * BSIZE ≤ off := by
    have := hstray hdev (by omega) (by omega)
    omega
  exact Harmless.bind (harmless_writeiLoop_outOfRange ip _ _ _ hmax)
    (fun off => (confinement sz p n).writeiEnd ip _ off) _ _ fun _ _ => trivial

end Inside

/-! ## The condition for a stray access -/

/-- The argument checks of `argfd` and `argptr` pass. -/
def ArgsPass (v : View) (fd p n : Int) : Prop :=
  (0 ≤ fd ∧ fd < NOFILE) ∧ toUint p < v.sz ∧ (toUint p + toUint n) % 4294967296 < v.sz

/-- The file is an inode that is not a device (and not a free one that stops `ilock`). -/
def OnInode (v : View) : Prop :=
  v.file.type = .inode ∧ (v.valid = true ∨ v.d.type ≠ 0) ∧ v.d.type ≠ T_DEV

/-- The condition for a stray access of `sys_read`: a negative length that passes the checks, on a
readable inode with the offset before its end, such that offset plus length stays below `2 ^ 32`. -/
def StrayRead (v : View) (fd p n : Int) : Prop :=
  n < 0 ∧ ArgsPass v fd p n ∧ v.file.readable = true ∧ OnInode v ∧
    v.file.off < v.d.size.toNat ∧ v.file.off + toUint n < 4294967296 ∧
    v.file.off / BSIZE < MAXFILE

/-- The condition for a stray access of `sys_write`. -/
def StrayWrite (v : View) (fd p n : Int) : Prop :=
  n < 0 ∧ ArgsPass v fd p n ∧ v.file.writable = true ∧ OnInode v ∧
    v.file.off ≤ v.d.size.toNat ∧ v.file.off + toUint n < 4294967296 ∧
    v.file.off < MAXFILE * BSIZE

section Calls

variable {v : View} {fd p n : Int} (hsz : v.sz ≤ 2147483648) (hlo : -2147483648 ≤ n)
  (hhi : n < 2147483648)
include hsz hlo hhi

/-- A length that passes `argptr` and is not negative fits into the process. -/
theorem fits_of_nonneg (hn : 0 ≤ n) (hp : toUint p < v.sz)
    (hpn : (toUint p + toUint n) % 4294967296 < v.sz) :
    toUint n = n.toNat ∧ toUint p + n.toNat ≤ v.sz := by
  have heq : toUint n = n.toNat := by rw [toUint]; omega
  rw [heq] at hpn
  exact ⟨heq, by omega⟩

theorem sysRead_staysInside (hstray : ¬StrayRead v fd p n) :
    StaysInside v (toUint p) n (sysRead fd p n) := by
  refine fun a ha => Performs.ok_of_wp (Q := fun _ _ => True) (wp_sysxfer (fun _ _ => trivial)
    fun f hfd hp hpn => ?_) ha
  by_cases hn : 0 ≤ n
  · obtain ⟨heq, hfit⟩ := fits_of_nonneg hsz hlo hhi hn hp hpn
    refine wp_filexfer f (fun _ _ => trivial) (fun q => harmless_piperead hfit hsz q)
      fun _ _ _ => ?_
    rw [heq]
    have hback : toInt n.toNat = n := by rw [← heq]; exact toInt_toUint hlo hhi
    exact Harmless.bind (harmless_readi hfit hsz _ _ hback) (fun _ => .pure _) _ _ fun _ _ => trivial
  · refine wp_filexfer f (fun _ _ => trivial) (fun q => harmless_piperead (by omega) hsz q)
      fun hmode htype hd => ?_
    rw [map_eq_pure_bind, wp_bind]
    refine wp_mono (monotone_demonic _) (fun _ _ _ => trivial)
      (wp_readi_neg _ rfl (by omega) hsz (by omega) hlo fun hdev hoff hsum hbn => hstray ?_)
    exact ⟨by omega, ⟨hfd, hp, hpn⟩, hmode, ⟨htype, hd, hdev⟩, hoff, hsum, hbn⟩

theorem sysWrite_staysInside (hstray : ¬StrayWrite v fd p n) :
    StaysInside v (toUint p) n (sysWrite fd p n) := by
  refine fun a ha => Performs.ok_of_wp (Q := fun _ _ => True) (wp_sysxfer (fun _ _ => trivial)
    fun f hfd hp hpn => ?_) ha
  by_cases hn : 0 ≤ n
  · obtain ⟨heq, hfit⟩ := fits_of_nonneg hsz hlo hhi hn hp hpn
    refine wp_filexfer f (fun _ _ => trivial) (fun q => harmless_pipewrite hfit hsz q)
      fun _ _ _ => ?_
    rw [heq]
    have hback : toInt n.toNat = n := by rw [← heq]; exact toInt_toUint hlo hhi
    exact harmless_writei hfit hsz _ _ hback _ _ fun _ _ => trivial
  · exact wp_filexfer f (fun _ _ => trivial) (fun q => harmless_pipewrite (by omega) hsz q)
      fun hmode htype hd => wp_writei_neg _ rfl (by omega) hsz (by omega) hlo
        fun hdev hoff hsum hmax => hstray
          ⟨by omega, ⟨hfd, hp, hpn⟩, hmode, ⟨htype, hd, hdev⟩, hoff, hsum, hmax⟩

end Calls

/-! ## Calls that stray -/

section Stray

theorem returns_doAct {a : Act} {v v' : View} {b : a.Resp} (h : answers a v b v') :
    Returns answers (doAct a) v b v' :=
  .act h (.ret _ _)

variable {v : View}

theorem returns_bwrite (s : Nat) (b : Block) : Returns answers (bwrite s b) v () v :=
  returns_doAct rfl

theorem returns_brelse (s : Nat) : Returns answers (brelse s) v () v :=
  returns_doAct rfl

section Valid

variable {v : View} (hval : v.valid = true)
include hval

theorem returns_bread (s : Nat) (b : Block) : Returns answers (bread s) v b v :=
  returns_doAct ⟨fun h => by simp [hval] at h, rfl⟩

/-- An answer for a look at the inode. -/
theorem returns_inode (ip : Slot) : Returns answers (inode ip) v ⟨v.inum, 1, none, true, v.d⟩ v :=
  returns_doAct ⟨rfl, hval.symm, fun _ => rfl, rfl⟩

/-- A block of ones as superblock and an empty bitmap block let `balloc` return. -/
theorem returns_balloc : Returns answers balloc v 0 v := by
  have hsb : Returns answers readsb v (superblockOf (Bytes.ofFn fun _ => 1)) v :=
    (returns_bread hval 1 _).bind ((returns_brelse 1).bind (.ret _ _))
  have hsize : 0 < (superblockOf (Bytes.ofFn fun _ => 1)).size := by decide
  have hbit : findClear Bytes.zero BPB 0 = some 0 := by
    rw [show BPB = 4095 + 1 from rfl, findClear, bitAt, Bytes.byte_zero]
    rfl
  refine hsb.bind ?_
  rw [ballocLoop, if_pos hsize]
  refine (returns_bread hval _ Bytes.zero).bind ?_
  rw [hbit]
  exact (returns_bwrite _ _).bind ((returns_brelse _).bind (.ret _ _))

/-- `setInode` on an inode that has been read. -/
theorem returns_setInode (ip : Slot) (d : Dinode) :
    Returns answers (setInode ip d) v () { v with d := d } :=
  returns_doAct (by show _ = if v.valid then _ else _; rw [if_pos hval])

/-- Every block of a file can be mapped. -/
theorem returns_bmap (ip : Slot) {bn : Nat} (hbn : bn < MAXFILE) :
    ∃ addr v', v'.valid = true ∧ Returns answers (bmap ip bn) v addr v' := by
  by_cases hdirect : bn < NDIRECT
  · by_cases haddr : v.d.direct bn = 0
    · refine ⟨0, { v with d := v.d.setAddr ⟨bn, Nat.lt_succ_of_lt hdirect⟩ 0 }, hval,
        (returns_inode hval ip).bind ?_⟩
      rw [dif_pos hdirect, if_pos haddr]
      exact (returns_balloc hval).bind ((returns_setInode hval ip _).bind (.ret _ _))
    · refine ⟨v.d.direct bn, v, hval, (returns_inode hval ip).bind ?_⟩
      rw [dif_pos hdirect, if_neg haddr]
      exact .ret _ _
  · have hind : bn - NDIRECT < NINDIRECT := by
      simp only [MAXFILE, NDIRECT, NINDIRECT] at *; omega
    -- an indirect block full of ones has an address at every place
    have hones : addrAt (Bytes.ofFn fun _ => 1) (bn - NDIRECT) ≠ 0 := by
      have hlt : 4 * (bn - NDIRECT) < BSIZE := by
        simp only [NINDIRECT] at hind; simp only [BSIZE]; omega
      rw [addrAt, le32, le16, Bytes.byte_ofFn _ hlt]
      simp
    have hrest (ind : Nat) (w : View) (hw : w.valid = true) :
        Returns answers (do
          let bp ← bread ind
          if addrAt bp (bn - NDIRECT) = 0 then do
            let addr ← balloc
            bwrite ind (putAddr bp (bn - NDIRECT) addr)
            brelse ind
            pure addr
          else do
            brelse ind
            pure (addrAt bp (bn - NDIRECT))) w (addrAt (Bytes.ofFn fun _ => 1) (bn - NDIRECT)) w := by
      refine (returns_bread hw ind (Bytes.ofFn fun _ => 1)).bind ?_
      rw [if_neg hones]
      exact (returns_brelse ind).bind (.ret _ _)
    by_cases haddr : v.d.indirect = 0
    · refine ⟨addrAt (Bytes.ofFn fun _ => 1) (bn - NDIRECT), { v with d := v.d.setAddr 12 0 }, hval,
        (returns_inode hval ip).bind ?_⟩
      rw [dif_neg hdirect, if_pos hind]
      refine Returns.bind ?_ (hrest 0 { v with d := v.d.setAddr 12 0 } hval)
      rw [bmapIndirect, if_pos haddr]
      exact (returns_balloc hval).bind ((returns_setInode hval ip _).bind (.ret _ _))
    · refine ⟨addrAt (Bytes.ofFn fun _ => 1) (bn - NDIRECT), v, hval,
        (returns_inode hval ip).bind ?_⟩
      rw [dif_neg hdirect, if_pos hind]
      refine Returns.bind ?_ (hrest v.d.indirect v hval)
      rw [bmapIndirect, if_neg haddr]
      exact .ret _ _

/-- A transfer of `readi` that starts writes to user memory. -/
theorem performs_readi (ip : Slot) {p off k : Nat} (hdev : v.d.type ≠ T_DEV)
    (hoff : off < v.d.size.toNat) (hk : 0 < k) (hsum : off + k < 4294967296)
    (hbn : off / BSIZE < MAXFILE) :
    ∃ addr bytes, 0 < bytes.length ∧
      Performs answers (readi ip (.user p) off k) v (.uwrite addr bytes) := by
  obtain ⟨blk, v', hval', hmap⟩ := returns_bmap hval ip hbn
  have hcount : ∃ m, (if off + k > v.d.size.toNat then v.d.size.toNat - off else k) = m + 1 := by
    refine Nat.exists_eq_succ_of_ne_zero ?_
    split <;> omega
  obtain ⟨m, hm⟩ := hcount
  have hlen : 0 < min (m + 1 - 0) (BSIZE - off % BSIZE) := by
    have := Nat.mod_lt off (show 0 < BSIZE by decide)
    omega
  refine ⟨(p + 0) % 4294967296, slice (Bytes.zero : Block).byte (off % BSIZE) (min (m + 1 - 0) (BSIZE - off % BSIZE)),
    by rwa [length_slice], (returns_inode hval ip).performs_bind ?_⟩
  dsimp only
  rw [if_neg hdev, if_neg (by omega), hm]
  refine Performs.bind ?_
  rw [readiLoop, if_pos (by omega)]
  exact hmap.performs_bind ((returns_bread hval' blk Bytes.zero).performs_bind (.here _ _ _))

/-- A transfer of `writei` that starts reads user memory. -/
theorem performs_writei (ip : Slot) {p off k : Nat} (hdev : v.d.type ≠ T_DEV)
    (hoff : off ≤ v.d.size.toNat) (hk : 0 < k) (hsum : off + k < 4294967296)
    (hmax : off < MAXFILE * BSIZE) :
    ∃ addr m, 0 < m ∧ Performs answers (writei ip (.user p) off k) v (.uread addr m) := by
  have hbn : off / BSIZE < MAXFILE := (Nat.div_lt_iff_lt_mul (by decide)).mpr hmax
  obtain ⟨blk, v', hval', hmap⟩ := returns_bmap hval ip hbn
  have hcount : ∃ m, (if off + k > MAXFILE * BSIZE
      then (MAXFILE * BSIZE + 4294967296 - off) % 4294967296 else k) = m + 1 := by
    refine Nat.exists_eq_succ_of_ne_zero ?_
    have hbig : MAXFILE * BSIZE = 71680 := rfl
    split <;> omega
  obtain ⟨m, hm⟩ := hcount
  have hlen : 0 < min (m + 1 - 0) (BSIZE - off % BSIZE) := by
    have := Nat.mod_lt off (show 0 < BSIZE by decide)
    omega
  refine ⟨(p + 0) % 4294967296, _, hlen, (returns_inode hval ip).performs_bind ?_⟩
  dsimp only
  rw [if_neg hdev, if_neg (by omega), hm]
  refine Performs.bind ?_
  rw [writeiLoop, if_pos (by omega)]
  exact hmap.performs_bind ((returns_bread hval' blk Bytes.zero).performs_bind
    (Performs.bind (.here _ _ _)))

end Valid

/-- `ilock` returns for an inode that has been read or is not free. -/
theorem returns_ilock (ip : Slot) (hd : v.valid = true ∨ v.d.type ≠ 0) :
    Returns answers (ilock ip) v () { v with valid := true } := by
  have hbusy : Returns answers (ilockBusy ip) v () v := returns_doAct rfl
  refine hbusy.bind ?_
  cases hval : v.valid with
  | true =>
      have hsame : { v with valid := true } = v := by rw [← hval]
      rw [hsame]
      refine (returns_inode hval ip).bind ?_
      rw [if_pos rfl]
      exact .ret _ _
  | false =>
      have hinode : Returns answers (inode ip) v ⟨v.inum, 1, none, false, v.d⟩ v :=
        returns_doAct ⟨rfl, hval.symm, fun _ => rfl, rfl⟩
      have hbread : Returns answers (bread (IBLOCK v.inum)) v (putDinode Bytes.zero v.inum v.d) v :=
        returns_doAct ⟨fun _ _ => dinodeAt_putDinode_self _ _ _, rfl⟩
      have hset (d : Dinode) : Returns answers (setInode ip d) v () v :=
        returns_doAct (by show _ = if v.valid then _ else _; rw [hval]; rfl)
      have hvalid : Returns answers (setValid ip) v () { v with valid := true } := returns_doAct rfl
      have htype : v.d.type ≠ 0 := hd.resolve_left (by simp [hval])
      refine hinode.bind ?_
      rw [if_neg (by simp)]
      refine hbread.bind ((hset _).bind ((returns_brelse _).bind (hvalid.bind ?_)))
      rw [dinodeAt_putDinode_self, if_neg htype]
      exact .ret _ _

/-- An access of the transfer on the inode is one of the whole call. -/
theorem performs_sysxfer {fd p n : Int} {a : Act} {mode : File → Bool}
    (pipexfer : Nat → Int → Nat → FsProg Int) (ixfer : Nat → Int → Slot → Nat → FsProg Int)
    {msg : String} (hargs : ArgsPass v fd p n) (hmode : mode v.file = true) (hd : OnInode v)
    (h : Performs answers (ixfer (toUint p) n v.file.ip v.file.off) { v with valid := true } a) :
    Performs answers (sysxfer (fun f q m => filexfer f mode (pipexfer q m) (ixfer q m) msg) fd p n)
      v a := by
  obtain ⟨hfd, hp, hpn⟩ := hargs
  let f : Fid := ⟨0, by decide⟩
  have hargfd : Returns answers (argfd fd) v (some (⟨fd.toNat, by omega⟩, f)) v := by
    rw [argfd, dif_pos hfd]
    have hofile (fd : Fd) : Returns answers (ofile fd) v (some f) v := returns_doAct rfl
    exact (hofile _).bind (.ret _ _)
  have hargptr : Returns answers (argptr p n) v (some (toUint p)) v := by
    have hsz : Returns answers procSz v v.sz v := returns_doAct ⟨rfl, rfl⟩
    refine hsz.bind ?_
    rw [if_neg (by omega)]
    exact .ret _ _
  have hfile {v : View} : Returns answers (file f) v v.file v := returns_doAct ⟨rfl, rfl⟩
  refine hargfd.performs_bind (hargptr.performs_bind (hfile.performs_bind ?_))
  rw [if_neg (by simp [hmode]), hd.1]
  exact (returns_ilock _ hd.2.1).performs_bind (hfile.performs_bind (Performs.bind h))

/-- A negative length is a large `uint`. -/
theorem toUint_pos_of_neg {n : Int} (hlo : -2147483648 ≤ n) (hn : n < 0) : 0 < toUint n := by
  rw [toUint]
  omega

/-- A read under the condition strays. -/
theorem sysRead_strays {fd p n : Int} (hlo : -2147483648 ≤ n) (h : StrayRead v fd p n) :
    ¬StaysInside v (toUint p) n (sysRead fd p n) := by
  obtain ⟨hn, hargs, hmode, hd, hoff, hsum, hbn⟩ := h
  obtain ⟨addr, bytes, hlen, hperf⟩ := performs_readi (v := { v with valid := true }) rfl v.file.ip
    (p := toUint p) hd.2.2 hoff (toUint_pos_of_neg hlo hn) hsum hbn
  have hcall : Performs answers (sysRead fd p n) v (.uwrite addr bytes) :=
    performs_sysxfer (fun q m p => piperead p (.user q) m)
      (fun q m ip off => Prod.fst <$> readi ip (.user q) off (toUint m))
      hargs hmode hd (by rw [map_eq_pure_bind]; exact hperf.bind)
  -- no address is inside a buffer of negative length
  intro hinside
  obtain ⟨-, h₁, h₂⟩ := hinside _ hcall 0 hlen
  omega

/-- A write under the condition strays. -/
theorem sysWrite_strays {fd p n : Int} (hlo : -2147483648 ≤ n) (h : StrayWrite v fd p n) :
    ¬StaysInside v (toUint p) n (sysWrite fd p n) := by
  obtain ⟨hn, hargs, hmode, hd, hoff, hsum, hmax⟩ := h
  obtain ⟨addr, m, hlen, hperf⟩ := performs_writei (v := { v with valid := true }) rfl v.file.ip
    (p := toUint p) hd.2.2 hoff (toUint_pos_of_neg hlo hn) hsum hmax
  have hcall : Performs answers (sysWrite fd p n) v (.uread addr m) :=
    performs_sysxfer (fun q m p => pipewrite p (.user q) m)
      (fun q m ip off => writei ip (.user q) off (toUint m)) hargs hmode hd hperf
  intro hinside
  obtain ⟨-, h₁, h₂⟩ := hinside _ hcall 0 hlen
  omega

end Stray

/-- **When user buffers are confined.** For every size of the process up to `USERTOP`, every open
file and all 32-bit arguments, `sys_read` and `sys_write` stay inside the process and inside the
buffer they are given in every execution, exactly if the call is not a stray one. -/
theorem userBuffers_confined_iff (v : View) (hsz : v.sz ≤ USERTOP) (fd p n : Int32) :
    (StaysInside v (toUint p.toInt) n.toInt (sysRead fd.toInt p.toInt n.toInt) ↔
      ¬StrayRead v fd.toInt p.toInt n.toInt) ∧
    (StaysInside v (toUint p.toInt) n.toInt (sysWrite fd.toInt p.toInt n.toInt) ↔
      ¬StrayWrite v fd.toInt p.toInt n.toInt) := by
  have hlo : -2147483648 ≤ n.toInt := n.le_toInt
  have hhi : n.toInt < 2147483648 := n.toInt_lt
  exact ⟨⟨fun hin hstray => sysRead_strays hlo hstray hin, sysRead_staysInside hsz hlo hhi⟩,
    ⟨fun hin hstray => sysWrite_strays hlo hstray hin, sysWrite_staysInside hsz hlo hhi⟩⟩

/-- A one-page process with a file of ten bytes open at its start. -/
def tenByteFile : View where
  sz := 4096
  file := ⟨.inode, 1, true, true, 0, ⟨0, zero_lt_NINODE⟩, 0⟩
  inum := 2
  d := ⟨T_FILE, 0, 0, 1, 10, fun _ => 0⟩
  valid := true

theorem userBuffers_confined_iff_tenByteFile :
    (StaysInside tenByteFile (toUint (16 : Int32).toInt) (8 : Int32).toInt
        (sysRead (0 : Int32).toInt (16 : Int32).toInt (8 : Int32).toInt) ↔
      ¬StrayRead tenByteFile (0 : Int32).toInt (16 : Int32).toInt (8 : Int32).toInt) ∧
    (StaysInside tenByteFile (toUint (16 : Int32).toInt) (8 : Int32).toInt
        (sysWrite (0 : Int32).toInt (16 : Int32).toInt (8 : Int32).toInt) ↔
      ¬StrayWrite tenByteFile (0 : Int32).toInt (16 : Int32).toInt (8 : Int32).toInt) :=
  userBuffers_confined_iff tenByteFile (by decide) 0 16 8

/-- **`read(0, 16, -1)` strays**: the check of `argptr` passes and the kernel writes the ten bytes
of the file to the user's memory. -/
theorem read_negative_length_strays :
    tenByteFile.sz ≤ USERTOP ∧ ¬StaysInside tenByteFile (toUint 16) (-1) (sysRead 0 16 (-1)) := by
  refine ⟨by decide, sysRead_strays (by decide) ?_⟩
  exact ⟨by decide, ⟨by decide, by decide, by decide⟩, rfl, ⟨rfl, Or.inl rfl, by decide⟩,
    by decide, by decide, by decide⟩

end Xv6.Fs

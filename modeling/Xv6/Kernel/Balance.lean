import Xv6.Fs.Brackets
import Xv6.Kernel.System
import Xv6.Lib.Held

/-! # The locks of inodes and buffers are given back

Every function of the file layers ends with no more inode and buffer locks than it started with,
except for those whose purpose is to take or to drop one. -/

namespace Xv6

open Lib

/-- The busy flags that an action sets. -/
def Act.sets : (a : Act) → a.Resp → Set BusyFlag
  | .bread n, _ => {.buf n}
  | .ilockBusy ip, _ => {.inode ip}
  | .iputTest ip, true => {.inode ip}
  | _, _ => ∅

/-- The busy flags that an action clears. -/
def Act.clears : (a : Act) → a.Resp → Set BusyFlag
  | .brelse n, _ => {.buf n}
  | .iunlock ip, _ => {.inode ip}
  | .iputFreed ip, _ => {.inode ip}
  | _, _ => ∅

/-- The actions of the file layers as acquiring and giving up busy flags. -/
def lockEffects : Effects Act Act.Resp BusyFlag := ⟨Act.sets, Act.clears, fun _ => ∅⟩

namespace Fs

open Effects

variable {α β : Type} {F : Set BusyFlag}

/-- The program ends with no more locks than it started with. -/
abbrev Balanced (p : FsProg α) : Prop := lockEffects.Neutral p

/-! ## Actions -/

/-- An action that sets no busy flag. -/
theorem balanced_doAct {a : Act} (h : ∀ b, a.sets b = ∅) : Balanced (doAct a) := .perform rfl h

theorem holds_doAct {a : Act} (h : ∀ b, a.sets b = ∅) : lockEffects.Holds F (doAct a) fun _ => F :=
  balanced_doAct h F

/-- `bread` takes the buffer. -/
theorem holds_bread (n : Nat) : lockEffects.Holds F (bread n) fun _ => insert (.buf n) F := by
  refine .perform rfl fun b => ?_
  show (F \ ∅) ∪ {.buf n} ⊆ _
  rw [Set.sdiff_empty, Set.union_singleton]

/-- Giving up a flag. -/
theorem holds_clear {a : Act} {l : BusyFlag} (hsets : ∀ b, a.sets b = ∅)
    (hclears : ∀ b, a.clears b = {l}) :
    lockEffects.Holds (insert l F) (doAct a) fun _ => F := by
  refine .perform rfl fun b => ?_
  show (insert l F \ a.clears b) ∪ a.sets b ⊆ F
  rw [hsets, hclears, Set.union_empty]
  exact Set.sdiff_singleton_subset_iff.mpr subset_rfl

/-- `brelse` gives it back. -/
theorem holds_brelse (n : Nat) : lockEffects.Holds (insert (.buf n) F) (brelse n) fun _ => F :=
  holds_clear (fun _ => rfl) fun _ => rfl

variable (ip : Slot)

theorem holds_iunlock : lockEffects.Holds (insert (.inode ip) F) (iunlock ip) fun _ => F :=
  holds_clear (fun _ => rfl) fun _ => rfl

theorem holds_iputFreed : lockEffects.Holds (insert (.inode ip) F) (iputFreed ip) fun _ => F :=
  holds_clear (fun _ => rfl) fun _ => rfl

theorem holds_ilockBusy : lockEffects.Holds F (ilockBusy ip) fun _ => insert (.inode ip) F := by
  refine .perform rfl fun b => ?_
  show (F \ ∅) ∪ {.inode ip} ⊆ _
  rw [Set.sdiff_empty, Set.union_singleton]

/-- `iput` locks the inode only if it is going to free it. -/
theorem holds_iputTest :
    lockEffects.Holds F (iputTest ip) fun freed => if freed then insert (.inode ip) F else F := by
  refine .perform rfl fun b => ?_
  cases b with
  | false =>
      show (F \ ∅) ∪ ∅ ⊆ F
      simp
  | true =>
      show (F \ ∅) ∪ {.inode ip} ⊆ insert (.inode ip) F
      simp

/-- A bracket: a buffer is held during a program that keeps the balance. -/
theorem balanced_bread {n : Nat} {f : Block → FsProg α}
    (hf : ∀ bp F, lockEffects.Holds (insert (.buf n) F) (f bp) fun _ => F) :
    Balanced (bread n >>= f) :=
  fun F => (holds_bread n).bind fun bp => hf bp F

/-- The end of such a bracket. -/
theorem holds_brelse_bind {n : Nat} {f : Unit → FsProg α} (hf : Balanced (f ())) :
    lockEffects.Holds (insert (.buf n) F) (brelse n >>= f) fun _ => F :=
  (holds_brelse n).bind fun _ => hf F

/-- The functions of brackets. -/
def balance : Brackets where
  Keeps _ _ p := Balanced p
  Closes n _ _ p := ∀ F, lockEffects.Holds (insert (.buf n) F) p fun _ => F
  ret := .ret
  panic := .panic
  plain {_ a} ha := by
    refine balanced_doAct fun b => ?_
    cases a with
    | bread | ilockBusy | iputTest => exact ha.elim
    | _ => rfl
  bind := .bind
  mono hp _ := hp
  bread _ hf := balanced_bread hf
  use hp hf := fun F => (hp _).bind fun x => hf x F
  brelse hf := fun _ => holds_brelse_bind hf
  stop := fun _ => .panic

/-! ## Inodes -/

/-- `ilock` takes the inode. -/
theorem holds_ilock : lockEffects.Holds F (ilock ip) fun _ => insert (.inode ip) F := by
  refine (holds_ilockBusy ip).bind fun _ => (holds_doAct fun _ => rfl).bind fun x => ?_
  split
  · exact .ret subset_rfl
  · refine (holds_bread _).bind fun bp => (holds_doAct fun _ => rfl).bind fun _ =>
      (holds_brelse _).bind fun _ => ?_
    refine (holds_doAct fun _ => rfl).bind fun _ => ?_
    split
    · exact .panic
    · exact .ret subset_rfl

theorem balanced_iput : Balanced (iput ip) := by
  refine fun F => (holds_iputTest ip).bind fun freed => ?_
  cases freed with
  | false => exact .ret subset_rfl
  | true =>
      exact (balance.itrunc _ _).bind fun _ => (holds_doAct fun _ => rfl).bind fun _ =>
        (holds_doAct fun _ => rfl).bind fun _ => (balance.iupdate _ _).bind fun _ =>
          holds_iputFreed _

/-- `iunlockput` drops the inode. -/
theorem holds_iunlockput : lockEffects.Holds (insert (.inode ip) F) (iunlockput ip) fun _ => F :=
  (holds_iunlock ip).bind fun _ => balanced_iput ip F

/-! ## Contents -/

theorem balanced_store (dst : Dst) (o : Nat) (bytes : List UInt8) : Balanced (dst.store o bytes) :=
  balance.store (k := 0) (fun _ _ => balanced_doAct fun _ => rfl) dst o bytes

theorem balanced_fetch (src : Src) (o m : Nat) : Balanced (src.fetch o m) :=
  balance.fetch (k := 0) (fun _ _ => balanced_doAct fun _ => rfl) src o m

/-- The console drops the inode while it waits, and takes it again. -/
theorem holds_consoleread (dst : Dst) (n : Int) :
    lockEffects.Holds (insert (.inode ip) F) (consoleread ip dst n)
      fun _ => insert (.inode ip) F := by
  refine (holds_iunlock ip).bind fun _ => (holds_doAct fun _ => rfl).bind fun _ =>
    (balance.consolereadLoop (k := 0) (fun o bytes _ => balanced_store dst o bytes) _
      le_rfl _).bind fun x => (holds_doAct fun _ => rfl).bind fun _ =>
        (holds_ilock ip).bind fun _ => ?_
  split
  · exact .ret subset_rfl
  · exact .ret subset_rfl

theorem holds_consolewrite (src : Src) (n : Int) :
    lockEffects.Holds (insert (.inode ip) F) (consolewrite ip src n)
      fun _ => insert (.inode ip) F :=
  (holds_iunlock ip).bind fun _ => (holds_doAct fun _ => rfl).bind fun _ =>
    (balance.consolewriteLoop (k := 0) (fun o m _ => balanced_fetch src o m)
      le_rfl _).bind fun _ => (holds_doAct fun _ => rfl).bind fun _ =>
        (holds_ilock ip).bind fun _ => .ret subset_rfl

/-- `readi` on a locked inode. -/
theorem holds_readi (dst : Dst) (off n : Nat) :
    lockEffects.Holds (insert (.inode ip) F) (readi ip dst off n)
      fun _ => insert (.inode ip) F := by
  refine (holds_doAct fun _ => rfl).bind fun x => ?_
  split
  · split
    · exact holds_consoleread _ _ _
    · exact .ret subset_rfl
  · split
    · exact .ret subset_rfl
    · exact (balance.readiLoop _ (fun o bytes _ => balanced_store dst o bytes) _ _ _ _ _).bind
        fun _ => .ret subset_rfl

/-- `writei` on a locked inode. -/
theorem holds_writei (src : Src) (off n : Nat) :
    lockEffects.Holds (insert (.inode ip) F) (writei ip src off n)
      fun _ => insert (.inode ip) F := by
  refine (holds_doAct fun _ => rfl).bind fun x => ?_
  split
  · split
    · exact holds_consolewrite _ _ _
    · exact .ret subset_rfl
  · split
    · exact .ret subset_rfl
    · exact (balance.writeiLoop _ (fun o m _ => balanced_fetch src o m) _ _ _ _).bind
        fun off => balance.writeiEnd _ _ _ _

/-! ## Directories and paths -/

theorem holds_findEmpty (dp : Slot) (n off : Nat) :
    lockEffects.Holds (insert (.inode dp) F) (findEmpty dp n off)
      fun _ => insert (.inode dp) F := by
  induction n generalizing off with
  | zero => exact .ret subset_rfl
  | succ n ih =>
      refine (holds_readi _ _ _ _).bind fun x => ?_
      dsimp only
      split
      · exact .panic
      · split
        · exact .ret subset_rfl
        · exact ih _

/-- `dirlink` on a locked directory. -/
theorem holds_dirlink (dp : Slot) (name : List UInt8) (inum : Nat) :
    lockEffects.Holds (insert (.inode dp) F) (dirlink dp name inum)
      fun _ => insert (.inode dp) F := by
  refine (balance.dirlookup _ _ _).bind fun found => ?_
  split
  · exact (balanced_iput _ _).bind fun _ => .ret subset_rfl
  · refine (holds_doAct fun _ => rfl).bind fun x => (holds_findEmpty _ _ _).bind fun off =>
      (holds_writei _ _ _ _).bind fun r => ?_
    split
    · exact .panic
    · exact .ret subset_rfl

theorem balanced_namexLoop (parent : Bool) (fuel : Nat) (ip : Slot) (path last : List UInt8) :
    Balanced (namexLoop parent fuel ip path last) := by
  induction fuel generalizing ip path last with
  | zero => exact .ret
  | succ fuel ih =>
      unfold namexLoop
      split
      · split
        · exact (balanced_iput _).bind fun _ => .ret
        · exact .ret
      · intro F
        refine (holds_ilock _).bind fun _ => (holds_doAct fun _ => rfl).bind fun x => ?_
        split
        · exact (holds_iunlockput _).bind fun _ => .ret subset_rfl
        · split
          · exact (holds_iunlock _).bind fun _ => .ret subset_rfl
          · refine (balance.dirlookup _ _ _).bind fun next => ?_
            split
            · exact (holds_iunlockput _).bind fun _ => .ret subset_rfl
            · exact (holds_iunlockput _).bind fun _ => ih _ _ _ _

theorem balanced_namex (path : List UInt8) (parent : Bool) : Balanced (namex path parent) := by
  refine .bind ?_ fun ip => balanced_namexLoop _ _ _ _ _
  unfold namexStart
  split
  · exact balanced_doAct fun _ => rfl
  · exact (balanced_doAct fun _ => rfl).bind fun _ => (balanced_doAct fun _ => rfl).bind fun _ =>
      .ret

theorem balanced_namei (path : List UInt8) : Balanced (namei path) :=
  (balanced_namex _ _).bind fun _ => .ret

/-! ## Files and pipes -/

theorem balanced_pipeclose (p : Nat) (writable : Bool) : Balanced (pipeclose p writable) := by
  refine (balanced_doAct fun _ => rfl).bind fun closed => ?_
  split
  · exact balanced_doAct fun _ => rfl
  · exact .ret

theorem balanced_fileclose (f : Fid) : Balanced (fileclose f) := by
  refine (balanced_doAct fun _ => rfl).bind fun last => ?_
  split
  · exact .ret
  · split
    · exact balanced_pipeclose _ _
    · exact balanced_iput _
    · exact .ret

theorem balanced_stati (x : Inode) (st : Nat) : Balanced (stati x st) :=
  (balanced_doAct fun _ => rfl).bind fun _ => (balanced_doAct fun _ => rfl).bind fun _ =>
    (balanced_doAct fun _ => rfl).bind fun _ => (balanced_doAct fun _ => rfl).bind fun _ =>
      balanced_doAct fun _ => rfl

theorem balanced_filestat (f : Fid) (st : Nat) : Balanced (filestat f st) := by
  refine (balanced_doAct fun _ => rfl).bind fun x => ?_
  split
  · exact fun F => (holds_ilock _).bind fun _ => (holds_doAct fun _ => rfl).bind fun _ =>
      (balanced_stati _ _ _).bind fun _ => (holds_iunlock _).bind fun _ => .ret subset_rfl
  · exact .ret

/-- A transfer keeps the balance if the transfers from and to pipes and locked inodes do. -/
theorem balanced_filexfer {f : Fid} {mode : File → Bool} {pipexfer : Nat → FsProg Int}
    {ixfer : Slot → Nat → FsProg Int} {msg : String} (hpipe : ∀ p, Balanced (pipexfer p))
    (hixfer : ∀ ip off F, lockEffects.Holds (insert (.inode ip) F) (ixfer ip off)
      fun _ => insert (.inode ip) F) :
    Balanced (filexfer f mode pipexfer ixfer msg) := by
  refine (balanced_doAct fun _ => rfl).bind fun x => ?_
  split
  · exact .ret
  · split
    · exact hpipe _
    · refine fun F => (holds_ilock _).bind fun _ => (holds_doAct fun _ => rfl).bind fun y =>
        (hixfer _ _ _).bind fun r => .bind ?_ fun _ => (holds_iunlock _).bind fun _ =>
          .ret subset_rfl
      exact .ite (holds_doAct fun _ => rfl) (.ret subset_rfl)
    · exact .panic

theorem balanced_fileread (f : Fid) (addr : Nat) (n : Int) : Balanced (fileread f addr n) :=
  balanced_filexfer
    (fun p => balance.piperead (k := 0) p fun o bytes _ => balanced_store _ o bytes)
    fun _ _ _ => (holds_readi _ _ _ _).map

theorem balanced_filewrite (f : Fid) (addr : Nat) (n : Int) : Balanced (filewrite f addr n) :=
  balanced_filexfer (fun p => balance.pipewrite (k := 0) p fun o m _ => balanced_fetch _ o m)
    fun _ _ _ => holds_writei _ _ _ _

theorem balanced_pipealloc : Balanced pipealloc := by
  refine (balanced_doAct fun _ => rfl).bind fun f0 => ?_
  split
  · exact .ret
  · refine (balanced_doAct fun _ => rfl).bind fun f1 => ?_
    split
    · exact (balanced_fileclose _).bind fun _ => .ret
    · refine (balanced_doAct fun _ => rfl).bind fun p => ?_
      split
      · exact (balanced_fileclose _).bind fun _ => (balanced_fileclose _).bind fun _ => .ret
      · exact (balanced_doAct fun _ => rfl).bind fun _ => (balanced_doAct fun _ => rfl).bind
          fun _ => (balanced_doAct fun _ => rfl).bind fun _ => .ret

theorem balanced_argptr (i size : Int) : Balanced (argptr i size) := by
  refine (balanced_doAct fun _ => rfl).bind fun sz => ?_
  split
  · exact .ret
  · exact .ret

theorem balanced_argfd (fd : Int) : Balanced (argfd fd) := by
  unfold argfd
  split
  · exact (balanced_doAct fun _ => rfl).bind fun _ => .ret
  · exact .ret

theorem balanced_fdalloc (f : Fid) : Balanced (fdalloc f) := by
  have hloop : ∀ n fd, Balanced (fdallocLoop f n fd) := by
    intro n
    induction n with
    | zero => exact fun _ => .ret
    | succ n ih =>
        intro fd
        unfold fdallocLoop
        split
        · refine (balanced_doAct fun _ => rfl).bind fun cur => ?_
          split
          · exact (balanced_doAct fun _ => rfl).bind fun _ => .ret
          · exact ih _
        · exact .ret
  exact hloop _ _

/-! ## System calls -/

theorem balanced_sysDup (fd : Int) : Balanced (sysDup fd) := by
  refine (balanced_argfd fd).bind fun a => ?_
  split
  · exact .ret
  · refine (balanced_fdalloc _).bind fun fd => ?_
    split
    · exact .ret
    · exact (balanced_doAct fun _ => rfl).bind fun _ => .ret

theorem balanced_sysxfer {xfer : Fid → Nat → Int → FsProg Int}
    (h : ∀ f addr n, Balanced (xfer f addr n)) (fd p n : Int) :
    Balanced (sysxfer xfer fd p n) := by
  refine (balanced_argfd fd).bind fun a => ?_
  split
  · exact .ret
  · refine (balanced_argptr _ _).bind fun p => ?_
    split
    · exact .ret
    · exact h _ _ _

theorem balanced_sysClose (fd : Int) : Balanced (sysClose fd) := by
  refine (balanced_argfd fd).bind fun a => ?_
  split
  · exact .ret
  · exact (balanced_doAct fun _ => rfl).bind fun _ => (balanced_fileclose _).bind fun _ => .ret

theorem balanced_sysFstat (fd st : Int) : Balanced (sysFstat fd st) := by
  refine (balanced_argfd fd).bind fun a => ?_
  split
  · exact .ret
  · refine (balanced_argptr _ _).bind fun st => ?_
    split
    · exact .ret
    · exact balanced_filestat _ _

theorem balanced_dropLink : Balanced (dropLink ip) :=
  (balanced_doAct fun _ => rfl).bind fun _ => (balanced_doAct fun _ => rfl).bind fun _ =>
    balance.iupdate _

theorem balanced_addLink : Balanced (addLink ip) :=
  (balanced_doAct fun _ => rfl).bind fun _ => (balanced_doAct fun _ => rfl).bind fun _ =>
    balance.iupdate _

theorem balanced_sysLinkBad : Balanced (sysLinkBad ip) :=
  fun _ => (holds_ilock ip).bind fun _ => (balanced_dropLink _ _).bind fun _ =>
    (holds_iunlockput _).bind fun _ => .ret subset_rfl

theorem balanced_sysLink (old new : StrArg) : Balanced (sysLink old new) := by
  unfold sysLink
  split
  · refine (balanced_namei _).bind fun ip => ?_
    split
    · exact .ret
    · refine fun F => (holds_ilock _).bind fun _ => (holds_doAct fun _ => rfl).bind fun x =>
        .ite ((holds_iunlockput _).bind fun _ => .ret subset_rfl) ?_
      refine (balanced_addLink _ _).bind fun _ => (holds_iunlock _).bind fun _ =>
        (balanced_namex _ _ _).bind fun dp => ?_
      split
      · exact balanced_sysLinkBad _ _
      · exact (holds_ilock _).bind fun _ => (holds_doAct fun _ => rfl).bind fun y =>
          (holds_dirlink _ _ _).bind fun r => .ite
            ((holds_iunlockput _).bind fun _ => balanced_sysLinkBad _ _)
            ((holds_iunlockput _).bind fun _ => (balanced_iput _ _).bind fun _ => .ret subset_rfl)
  · exact .ret

/-- Programs that leave a locked inode locked also do so under another lock. -/
theorem holds_below {l l' : BusyFlag} {p : FsProg α}
    (h : ∀ F, lockEffects.Holds (insert l F) p fun _ => insert l F) :
    lockEffects.Holds (insert l' (insert l F)) p fun _ => insert l' (insert l F) :=
  (h (insert l' F)).conseq (Set.insert_comm _ _ _).subset fun _ => (Set.insert_comm _ _ _).subset

/-- `iunlockput` under another lock. -/
theorem holds_iunlockput_below {l : BusyFlag} :
    lockEffects.Holds (insert l (insert (.inode ip) F)) (iunlockput ip) fun _ => insert l F :=
  (holds_iunlockput ip).conseq (Set.insert_comm _ _ _).subset fun _ => subset_rfl

theorem holds_isdirempty (dp : Slot) :
    lockEffects.Holds (insert (.inode dp) F) (isdirempty dp) fun _ => insert (.inode dp) F := by
  have hloop : ∀ n off, lockEffects.Holds (insert (.inode dp) F) (isdiremptyLoop dp n off)
      fun _ => insert (.inode dp) F := by
    intro n
    induction n with
    | zero => exact fun _ => .ret subset_rfl
    | succ n ih =>
        exact fun off => (holds_readi _ _ _ _).bind fun x => .ite .panic
          (.ite (.ret subset_rfl) (ih _))
  exact (holds_doAct fun _ => rfl).bind fun _ => hloop _ _

theorem holds_sysUnlinkErase (dp ip : Slot) (off : Nat) :
    lockEffects.Holds (insert (.inode ip) (insert (.inode dp) F)) (sysUnlinkErase dp ip off)
      fun _ => F := by
  refine (holds_below fun _ => holds_writei _ _ _ _).bind fun r => .ite .panic ?_
  refine (holds_doAct fun _ => rfl).bind fun x => .bind (.ite (balanced_dropLink _ _)
    (.ret subset_rfl)) fun _ => ?_
  exact (holds_iunlockput_below _).bind fun _ => (balanced_dropLink _ _).bind fun _ =>
    (holds_iunlockput _).bind fun _ => .ret subset_rfl

theorem balanced_sysUnlink (path : StrArg) : Balanced (sysUnlink path) := by
  unfold sysUnlink
  split
  · exact .ret
  · refine (balanced_namex _ _).bind fun dp => ?_
    split
    · exact .ret
    · refine fun F => (holds_ilock _).bind fun _ => .ite
        ((holds_iunlockput _).bind fun _ => .ret subset_rfl)
        ((balance.dirlookup _ _ _).bind fun found => ?_)
      split
      · exact (holds_iunlockput _).bind fun _ => .ret subset_rfl
      · exact (holds_ilock _).bind fun _ => (holds_doAct fun _ => rfl).bind fun x => .ite .panic
          (.ite ((holds_isdirempty _).bind fun empty => .ite (holds_sysUnlinkErase _ _ _)
              ((holds_iunlockput _).bind fun _ => (holds_iunlockput _).bind fun _ =>
                .ret subset_rfl))
            (holds_sysUnlinkErase _ _ _))

theorem holds_createDots (dp ip : Slot) :
    lockEffects.Holds (insert (.inode ip) F) (createDots dp ip) fun _ => insert (.inode ip) F :=
  (balanced_addLink _ _).bind fun _ => (holds_doAct fun _ => rfl).bind fun _ =>
    (holds_dirlink _ _ _).bind fun _ => .ite .panic ((holds_doAct fun _ => rfl).bind fun _ =>
      (holds_dirlink _ _ _).bind fun _ => .ite .panic (.ret subset_rfl))

/-- `create` returns a locked inode. -/
theorem holds_create (path : List UInt8) (type major minor : Int16) :
    lockEffects.Holds F (create path type major minor)
      fun ip => ip.elim F fun ip => insert (.inode ip) F := by
  refine (balanced_namex _ _ _).bind fun dp => ?_
  split
  · exact .ret subset_rfl
  · refine (holds_ilock _).bind fun _ => (balance.dirlookup _ _ _).bind fun found => ?_
    split
    · exact (holds_iunlockput _).bind fun _ => (holds_ilock _).bind fun _ =>
        (holds_doAct fun _ => rfl).bind fun x => .ite (.ret subset_rfl)
          ((holds_iunlockput _).bind fun _ => .ret subset_rfl)
    · refine (balance.ialloc _ _).bind fun ip => (holds_ilock ip).bind fun _ =>
        (holds_doAct fun _ => rfl).bind fun x => (holds_doAct fun _ => rfl).bind fun _ =>
          (balance.iupdate _ _).bind fun _ => .bind (.ite (holds_createDots _ _)
            (.ret subset_rfl)) fun _ => ?_
      exact (holds_doAct fun _ => rfl).bind fun y =>
        (holds_below fun _ => holds_dirlink _ _ _).bind fun r => .ite .panic
          ((holds_iunlockput_below _).bind fun _ => .ret subset_rfl)

theorem holds_sysOpenFile (omode : Int) :
    lockEffects.Holds (insert (.inode ip) F) (sysOpenFile ip omode) fun _ => F := by
  refine (holds_doAct fun _ => rfl).bind fun f => ?_
  split
  · exact (holds_iunlockput _).bind fun _ => .ret subset_rfl
  · refine (balanced_fdalloc _ _).bind fun fd => ?_
    split
    · exact (balanced_fileclose _ _).bind fun _ => (holds_iunlockput _).bind fun _ =>
        .ret subset_rfl
    · exact (holds_iunlock _).bind fun _ => (holds_doAct fun _ => rfl).bind fun _ =>
        .ret subset_rfl

theorem balanced_sysOpen (path : StrArg) (omode : Int) : Balanced (sysOpen path omode) := by
  unfold sysOpen
  split
  · exact .ret
  · refine fun F => .ite ((holds_create _ _ _ _).bind fun ip => ?_)
      ((balanced_namei _ _).bind fun ip => ?_)
    · cases ip with
      | none => exact .ret subset_rfl
      | some ip => exact holds_sysOpenFile _ _
    · split
      · exact .ret subset_rfl
      · exact (holds_ilock _).bind fun _ => (holds_doAct fun _ => rfl).bind fun x => .ite
          ((holds_iunlockput _).bind fun _ => .ret subset_rfl) (holds_sysOpenFile _ _)

/-- The common end of `sys_mkdir` and `sys_mknod`. -/
theorem balanced_createPut (path : List UInt8) (type major minor : Int16) :
    Balanced (do
      let ip ← create path type major minor
      match ip with
      | none => pure (-1 : Int)
      | some ip => do
          iunlockput ip
          pure 0) := by
  refine fun F => (holds_create _ _ _ _).bind fun ip => ?_
  cases ip with
  | none => exact .ret subset_rfl
  | some ip => exact (holds_iunlockput _).bind fun _ => .ret subset_rfl

theorem balanced_sysMkdir (path : StrArg) : Balanced (sysMkdir path) := by
  cases path with
  | none => exact .ret
  | some path => exact balanced_createPut _ _ _ _

theorem balanced_sysMknod (path : StrArg) (major minor : Int) :
    Balanced (sysMknod path major minor) := by
  cases path with
  | none => exact .ret
  | some path => exact balanced_createPut _ _ _ _

theorem balanced_sysChdir (path : StrArg) : Balanced (sysChdir path) := by
  cases path with
  | none => exact .ret
  | some path =>
      refine fun F => (balanced_namei _ _).bind fun ip => ?_
      split
      · exact .ret subset_rfl
      · exact (holds_ilock _).bind fun _ => (holds_doAct fun _ => rfl).bind fun x => .ite
          ((holds_iunlockput _).bind fun _ => .ret subset_rfl)
          ((holds_iunlock _).bind fun _ => (holds_doAct fun _ => rfl).bind fun _ =>
            (balanced_iput _ _).bind fun _ => (holds_doAct fun _ => rfl).bind fun _ =>
              .ret subset_rfl)

theorem balanced_sysPipe (fdp : Int) : Balanced (sysPipe fdp) := by
  refine (balanced_argptr _ _).bind fun fdp => ?_
  split
  · exact .ret
  · refine balanced_pipealloc.bind fun files => ?_
    split
    · exact .ret
    · refine (balanced_fdalloc _).bind fun fd0 => ?_
      split
      · exact (balanced_fileclose _).bind fun _ => (balanced_fileclose _).bind fun _ => .ret
      · refine (balanced_fdalloc _).bind fun fd1 => ?_
        split
        · exact (balanced_doAct fun _ => rfl).bind fun _ => (balanced_fileclose _).bind fun _ =>
            (balanced_fileclose _).bind fun _ => .ret
        · exact (balanced_doAct fun _ => rfl).bind fun _ => (balanced_doAct fun _ => rfl).bind
            fun _ => .ret

theorem balanced_exitFs : Balanced exitFs := by
  have hclose : ∀ fds, Balanced (closeFiles fds) := by
    intro fds
    induction fds with
    | nil => exact .ret
    | cons fd fds ih =>
        refine (balanced_doAct fun _ => rfl).bind fun f => .bind ?_ fun _ => ih
        split
        · exact (balanced_fileclose _).bind fun _ => balanced_doAct fun _ => rfl
        · exact .ret
  exact (hclose _).bind fun _ => (balanced_doAct fun _ => rfl).bind fun _ =>
    (balanced_iput _).bind fun _ => balanced_doAct fun _ => rfl

end Fs

end Xv6

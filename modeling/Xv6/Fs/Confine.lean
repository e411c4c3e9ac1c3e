import Xv6.Fs.Brackets
import Xv6.Fs.Sysfile

/-! # Confinement of user buffers

Which user addresses `sys_read` and `sys_write` touch. The calling process runs against an arbitrary
environment: every action may be answered in any way, except that the process has a size, the file
behind the descriptor has the fields it has, and its inode has the contents it has (`View`). The
check of `argptr` takes a negative length for a shorter pointer, and `readi` and `writei` then take
it for a number near `2 ^ 32`. -/

namespace Xv6.Fs

open Lib Prog

/-- What a call of `sys_read` or `sys_write` depends on: the size of the process, the open file, and
the file's inode with whether its in-core copy has been read from the disk. -/
structure View where
  sz : Nat
  file : File
  inum : Nat
  d : Dinode
  valid : Bool

/-- **The answers an environment may give** to a process with a given view, and the view after. -/
def answers : (a : Act) → View → a.Resp → View → Prop
  | .procSz, v, x, v' => x = v.sz ∧ v' = v
  | .file _, v, x, v' => x = v.file ∧ v' = v
  | .inode _, v, x, v' =>
      x.inum = v.inum ∧ x.valid = v.valid ∧ (v.valid = true → x.d = v.d) ∧ v' = v
  | .bread s, v, b, v' =>
      (v.valid = false → s = IBLOCK v.inum → dinodeAt b v.inum = v.d) ∧ v' = v
  | .setInode _ d, v, _, v' => v' = if v.valid then { v with d := d } else v
  | .setValid _, v, _, v' => v' = { v with valid := true }
  | .setOff _ off, v, _, v' => v' = { v with file := { v.file with off := off } }
  | _, v, _, v' => v' = v

/-- An address inside the process and inside the buffer of `n` bytes at `p`. -/
def Inside (sz p : Nat) (n : Int) (x : Nat) : Prop := x < sz ∧ p ≤ x ∧ (x : Int) < p + n

/-- An action that touches user memory only inside the buffer of `n` bytes at `p`. -/
def Confined (sz p : Nat) (n : Int) : Act → Prop
  | .uread addr m => ∀ i < m, Inside sz p n (addr + i)
  | .uwrite addr bytes => ∀ i < bytes.length, Inside sz p n (addr + i)
  | _ => True

/-- Every user address that the program touches in any execution is inside the buffer. -/
def StaysInside {α : Type} (v : View) (p : Nat) (n : Int) (prog : FsProg α) : Prop :=
  ∀ a, Performs answers prog v a → Confined v.sz p n a

/-! ## Programs without a stray access -/

section Harmless

variable {sz p : Nat} {n : Int} {α β : Type}

/-- The specification used below: stay inside the buffer, whatever the answers. -/
abbrev insideSpec (sz p : Nat) (n : Int) : Spec Act Act.Resp View :=
  demonic answers (Confined sz p n)

/-- A program all of whose accesses are inside the buffer, whatever the view. -/
def Harmless (sz p : Nat) (n : Int) (prog : FsProg α) : Prop :=
  ∀ (Q : α → View → Prop) v, (∀ x v', Q x v') → wp (insideSpec sz p n) (fun _ => True) prog Q v

theorem Harmless.pure (x : α) : Harmless sz p n (Pure.pure x : FsProg α) := fun _ v h => h x v

theorem Harmless.panic (msg : String) : Harmless sz p n (Prog.panic msg : FsProg α) :=
  fun _ _ _ => trivial

theorem Harmless.bind {prog : FsProg α} {f : α → FsProg β} (h : Harmless sz p n prog)
    (hf : ∀ x, Harmless sz p n (f x)) : Harmless sz p n (prog >>= f) := by
  intro Q v hQ
  rw [wp_bind]
  exact h _ v fun x v' => hf x Q v' hQ

theorem Harmless.act {a : Act} (h : Confined sz p n a) : Harmless sz p n (doAct a) :=
  fun _ _ hQ => ⟨h, fun b v' _ => hQ b v'⟩

theorem Harmless.ite {c : Prop} [Decidable c] {s t : FsProg α} (hs : c → Harmless sz p n s)
    (ht : ¬c → Harmless sz p n t) : Harmless sz p n (if c then s else t) := by
  split
  · exact hs ‹_›
  · exact ht ‹_›

/-- The functions of brackets. -/
def confinement (sz p : Nat) (n : Int) : Brackets where
  Keeps _ _ prog := Harmless sz p n prog
  Closes _ _ _ prog := Harmless sz p n prog
  ret := .pure _
  panic := .panic _
  plain {_ a} ha := by
    refine .act ?_
    cases a with
    | uread | uwrite => exact ha.elim
    | _ => trivial
  bind := .bind
  mono h _ := h
  bread _ hf := Harmless.bind (.act trivial) hf
  use := .bind
  brelse hf := Harmless.bind (.act trivial) fun _ => hf
  stop := .panic _

/-- Past the largest file `bmap` panics. -/
theorem harmless_bmap_outOfRange (ip : Slot) {bn : Nat} (h : MAXFILE ≤ bn) (f : Nat → FsProg α) :
    Harmless sz p n (bmap ip bn >>= f) := by
  have hdirect : ¬bn < NDIRECT := by simp only [MAXFILE, NDIRECT, NINDIRECT] at *; omega
  have hrange : ¬bn - NDIRECT < NINDIRECT := by simp only [MAXFILE, NDIRECT, NINDIRECT] at *; omega
  rw [bmap, bind_assoc]
  refine .bind (.act trivial) fun x => ?_
  rw [dif_neg hdirect, if_neg hrange]
  exact .panic _

theorem harmless_iunlock (ip : Slot) : Harmless sz p n (iunlock ip) := .act trivial

theorem harmless_ilock (ip : Slot) : Harmless sz p n (ilock ip) :=
  .bind (.act trivial) fun _ => .bind (.act trivial) fun _ =>
    .ite (fun _ => .pure _) fun _ => .bind (.act trivial) fun _ =>
      .bind (.act trivial) fun _ => .bind (.act trivial) fun _ =>
        .bind (.act trivial) fun _ => .ite (fun _ => .panic _) fun _ => .pure _

theorem harmless_advance (f : Fid) (off : Nat) (r : Int) : Harmless sz p n (advance f off r) :=
  .ite (fun _ => .act trivial) fun _ => .pure _

/-! ### Transfers of at most `n` bytes -/

section Transfers

theorem inside_of_lt (hfit : p + n.toNat ≤ sz) {i : Nat} (hi : i < n.toNat) :
    Inside sz p n (p + i) := by
  refine ⟨?_, ?_, ?_⟩ <;> omega

variable (hfit : p + n.toNat ≤ sz) (hsz : sz ≤ 2147483648)
include hfit hsz

theorem harmless_store {o : Nat} {bytes : List UInt8} (h : o + bytes.length ≤ n.toNat) :
    Harmless sz p n ((Dst.user p).store o bytes) := by
  refine .act fun i hi => ?_
  rw [Nat.mod_eq_of_lt (by omega), Nat.add_assoc]
  exact inside_of_lt hfit (by omega)

theorem harmless_fetch {o m : Nat} (h : o + m ≤ n.toNat) :
    Harmless sz p n ((Src.user p).fetch o m) := by
  refine .bind (.act fun i hi => ?_) fun bs => .pure _
  rw [Nat.mod_eq_of_lt (by omega), Nat.add_assoc]
  exact inside_of_lt hfit (by omega)

omit hfit hsz in
theorem harmless_readiLoop_outOfRange (ip : Slot) (k tot off : Nat) (acc : List UInt8) {dst : Dst}
    {fuel : Nat} (hbn : MAXFILE ≤ off / BSIZE) :
    Harmless sz p n (readiLoop ip dst k fuel tot off acc) := by
  cases fuel with
  | zero => exact .pure _
  | succ fuel => exact .ite (fun _ => harmless_bmap_outOfRange ip hbn _) fun _ => .pure _

omit hfit hsz in
theorem harmless_writeiLoop_outOfRange (ip : Slot) (k tot off : Nat) {src : Src} {fuel : Nat}
    (hoff : MAXFILE * BSIZE ≤ off) : Harmless sz p n (writeiLoop ip src k fuel tot off) := by
  have hbn : MAXFILE ≤ off / BSIZE := (Nat.le_div_iff_mul_le (by decide)).mpr hoff
  cases fuel with
  | zero => exact .pure _
  | succ fuel => exact .ite (fun _ => harmless_bmap_outOfRange ip hbn _) fun _ => .pure _

theorem harmless_consoleread (ip : Slot) : Harmless sz p n (consoleread ip (.user p) n) := by
  have hloop : Harmless sz p n (consolereadLoop (.user p) n.toNat n.toNat []) :=
    (confinement sz p n).consolereadLoop (k := 0) (fun _ _ h => harmless_store hfit hsz h) _
      (Nat.zero_add _).le
  refine (harmless_iunlock ip).bind fun _ => .bind (.act trivial) fun _ => hloop.bind fun r =>
    .bind (.act trivial) fun _ => (harmless_ilock ip).bind fun _ => ?_
  cases r.1 with
  | none => exact .pure _
  | some left => exact .pure _

theorem harmless_consolewrite (ip : Slot) : Harmless sz p n (consolewrite ip (.user p) n) := by
  have hloop : Harmless sz p n (consolewriteLoop (.user p) n.toNat 0) :=
    (confinement sz p n).consolewriteLoop (k := 0) (fun _ _ h => harmless_fetch hfit hsz h)
      (Nat.zero_add _).le
  exact (harmless_iunlock ip).bind fun _ => .bind (.act trivial) fun _ => hloop.bind fun _ =>
    .bind (.act trivial) fun _ => (harmless_ilock ip).bind fun _ => .pure _

theorem harmless_piperead (q : Nat) : Harmless sz p n (piperead q (.user p) n) :=
  (confinement sz p n).piperead (k := 0) q fun _ _ h => harmless_store hfit hsz h

theorem harmless_pipewrite (q : Nat) : Harmless sz p n (pipewrite q (.user p) n) :=
  (confinement sz p n).pipewrite (k := 0) q fun _ _ h => harmless_fetch hfit hsz h

theorem harmless_readi (ip : Slot) (off : Nat) (hn : toInt n.toNat = n) :
    Harmless sz p n (readi ip (.user p) off n.toNat) := by
  refine .bind (.act trivial) fun x => .ite (fun _ => .ite (fun _ => ?_) fun _ => .pure _)
    fun _ => .ite (fun _ => .pure _) fun _ => ?_
  · rw [hn]
    exact harmless_consoleread hfit hsz ip
  · refine .bind ((confinement sz p n).readiLoop ip (fun _ _ h =>
      harmless_store hfit hsz (h.trans ?_)) _ _ _ _) fun bytes => .pure _
    split <;> omega

theorem harmless_writei (ip : Slot) (off : Nat) (hn : toInt n.toNat = n) :
    Harmless sz p n (writei ip (.user p) off n.toNat) := by
  refine .bind (.act trivial) fun x => .ite (fun _ => .ite (fun _ => ?_) fun _ => .pure _)
    fun _ => .ite (fun _ => .pure _) fun hoff => ?_
  · rw [hn]
    exact harmless_consolewrite hfit hsz ip
  · refine .bind ?_ fun off => (confinement sz p n).writeiEnd ip _ off
    have hbig : MAXFILE * BSIZE = 71680 := rfl
    by_cases hoff' : off ≤ MAXFILE * BSIZE
    · refine (confinement sz p n).writeiLoop ip (fun _ _ h =>
        harmless_fetch hfit hsz (h.trans ?_)) _ _ _
      split <;> omega
    · exact harmless_writeiLoop_outOfRange ip _ _ _ (by omega)

end Transfers

end Harmless

end Xv6.Fs

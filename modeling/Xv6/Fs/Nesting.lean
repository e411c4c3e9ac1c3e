import Xv6.Fs.Brackets

/-! # How deep the buffers are nested

How many buffers a function of `fs.c` holds at a time does not depend on what it reads: `balloc`,
`bfree` and the functions on inodes use one buffer after the other, and `bmap` and `itrunc` call
them while they hold one. The resource of a process is the list of the buffers that it holds. -/

namespace Xv6

open Lib Prog

/-- **The actions on the list of buffers**: `bread` is called with at most one buffer held, and
`brelse` for a buffer that is held. -/
def tally : Spec Act Act.Resp (List Nat)
  | .bread n, Q, l => l.length ≤ 1 ∧ (n ∉ l → ∀ b, Q b (n :: l))
  | .brelse n, Q, l => n ∈ l ∧ Q () (l.erase n)
  | _, Q, l => ∀ b, Q b l

theorem monotone_tally : Monotone tally := by
  intro a Q Q' l hQ h
  cases a with
  | bread n => exact ⟨h.1, fun hn b => hQ _ _ (h.2 hn b)⟩
  | brelse n => exact ⟨h.1, hQ _ _ h.2⟩
  | _ => exact fun b => hQ _ _ (h b)

/-- The other actions say nothing about buffers. -/
theorem tally_off {a : Act} {Q : a.Resp → List Nat → Prop} {l : List Nat}
    (hread : ∀ n, a ≠ .bread n) (hrelse : ∀ n, a ≠ .brelse n) (h : tally a Q l) (b : a.Resp) :
    Q b l := by
  cases a with
  | bread n => exact absurd rfl (hread n)
  | brelse n => exact absurd rfl (hrelse n)
  | _ => exact h b

namespace Fs

variable {α β : Type} {k n : Nat}

/-- **With `k` buffers held the program needs at most two**, and it ends with those it started
with. -/
def Nests (k : Nat) (prog : FsProg α) : Prop :=
  ∀ l : List Nat, l.length ≤ k → wp tally (fun _ => True) prog (fun _ l' => l' = l) l

/-- The program gives the buffer `n` back. -/
def Closes (n k : Nat) (prog : FsProg α) : Prop :=
  ∀ l : List Nat, l.length ≤ k → wp tally (fun _ => True) prog (fun _ l' => l' = l) (n :: l)

namespace Nests

theorem ret {x : α} : Nests k (Prog.ret x : FsProg α) := fun _ _ => rfl

theorem panic {msg : String} : Nests k (Prog.panic msg : FsProg α) := fun _ _ => trivial

/-- An action on something else. -/
theorem doAct {a : Act} (h : ∀ Q l, (∀ b, Q b l) → tally a Q l) : Nests k (doAct a) :=
  fun l _ => h _ l fun _ => rfl

theorem bind {p : FsProg α} {f : α → FsProg β} (hp : Nests k p) (hf : ∀ x, Nests k (f x)) :
    Nests k (p >>= f) := by
  intro l hl
  rw [wp_bind]
  refine wp_mono monotone_tally (fun x l' h => ?_) (hp l hl)
  rw [h]
  exact hf x l hl

theorem ite {c : Prop} {_ : Decidable c} {p q : FsProg α} (hp : Nests k p) (hq : Nests k q) :
    Nests k (if c then p else q) := by
  split
  · exact hp
  · exact hq

theorem mono {j : Nat} {p : FsProg α} (hp : Nests k p) (hj : j ≤ k) : Nests j p :=
  fun l hl => hp l (hl.trans hj)

end Nests

/-- One more buffer. -/
theorem nests_bread {f : Block → FsProg α} (hk : k ≤ 1) (hf : ∀ b, Closes n k (f b)) :
    Nests k (bread n >>= f) :=
  fun l hl => ⟨hl.trans hk, fun _ b => hf b l hl⟩

namespace Closes

theorem brelse_bind {f : Unit → FsProg α} (hf : Nests k (f ())) :
    Closes n k (Fs.brelse n >>= f) := by
  intro l hl
  refine ⟨List.mem_cons_self, ?_⟩
  rw [List.erase_cons_head]
  exact hf l hl

/-- A program run while the buffer is held. -/
theorem bind {p : FsProg α} {f : α → FsProg β} (hp : Nests (k + 1) p)
    (hf : ∀ x, Closes n k (f x)) : Closes n k (p >>= f) := by
  intro l hl
  rw [wp_bind]
  refine wp_mono monotone_tally (fun x l' h => ?_) (hp (n :: l) (Nat.succ_le_succ hl))
  rw [h]
  exact hf x l hl

theorem panic {msg : String} : Closes n k (Prog.panic msg : FsProg α) := fun _ _ => trivial

end Closes

/-- The functions of brackets. -/
def nesting : Brackets where
  Keeps k _ p := Nests k p
  Closes n k _ p := Closes n k p
  ret := .ret
  panic := .panic
  plain {_ a} ha := by
    refine .doAct fun Q l h => ?_
    cases a with
    | bread | brelse => exact ha.elim
    | _ => exact h
  bind := .bind
  mono := .mono
  bread := nests_bread
  use := .bind
  brelse := .brelse_bind
  stop := .panic

/-! ## Inodes -/

theorem nests_ilock (ip : Slot) : Nests 1 (ilock ip) :=
  .bind (.doAct fun _ _ h => h) fun _ => .bind (.doAct fun _ _ h => h) fun _ =>
    .ite .ret (nests_bread le_rfl fun _ => .bind (.doAct fun _ _ h => h) fun _ =>
      .brelse_bind (.bind (.doAct fun _ _ h => h) fun _ => .ite .panic .ret))

theorem nests_iput (ip : Slot) : Nests 0 (iput ip) :=
  .bind (.doAct fun _ _ h => h) fun _ => .ite (.bind (nesting.itrunc ip) fun _ =>
    .bind (.doAct fun _ _ h => h) fun _ => .bind (.doAct fun _ _ h => h) fun _ =>
      .bind (nesting.mono (nesting.iupdate ip) (Nat.zero_le _)) fun _ => .doAct fun _ _ h => h) .ret

theorem nests_iunlockput (ip : Slot) : Nests 0 (iunlockput ip) :=
  .bind (.doAct fun _ _ h => h) fun _ => nests_iput ip

/-! ## Contents, directories and paths -/

theorem nests_store (dst : Dst) (o : Nat) (bytes : List UInt8) : Nests k (dst.store o bytes) :=
  nesting.store (fun _ _ => .doAct fun _ _ h => h) dst o bytes

theorem nests_fetch (src : Src) (o m : Nat) : Nests k (src.fetch o m) :=
  nesting.fetch (fun _ _ => .doAct fun _ _ h => h) src o m

theorem nests_consoleread (ip : Slot) (dst : Dst) (n : Int) : Nests 0 (consoleread ip dst n) := by
  refine .bind (.doAct fun _ _ h => h) fun _ => .bind (.doAct fun _ _ h => h) fun _ =>
    .bind (nesting.consolereadLoop (fun o bytes _ => nests_store dst o bytes) _ le_rfl)
      fun r => .bind (.doAct fun _ _ h => h) fun _ =>
        .bind ((nests_ilock ip).mono (Nat.zero_le _)) fun _ => ?_
  split
  · exact .ret
  · exact .ret

theorem nests_consolewrite (ip : Slot) (src : Src) (n : Int) : Nests 0 (consolewrite ip src n) :=
  .bind (.doAct fun _ _ h => h) fun _ => .bind (.doAct fun _ _ h => h) fun _ =>
    .bind (nesting.consolewriteLoop (fun o m _ => nests_fetch src o m) le_rfl) fun _ =>
      .bind (.doAct fun _ _ h => h) fun _ =>
        .bind ((nests_ilock ip).mono (Nat.zero_le _)) fun _ => .ret

theorem nests_readi (ip : Slot) (dst : Dst) (off n : Nat) : Nests 0 (readi ip dst off n) :=
  .bind (.doAct fun _ _ h => h) fun _ => .ite (.ite (nests_consoleread ip dst _) .ret)
    (.ite .ret (.bind (nesting.readiLoop ip (fun o bytes _ => nests_store dst o bytes) _ _ _ _)
      fun _ => .ret))

theorem nests_writei (ip : Slot) (src : Src) (off n : Nat) : Nests 0 (writei ip src off n) :=
  .bind (.doAct fun _ _ h => h) fun _ => .ite (.ite (nests_consolewrite ip src _) .ret)
    (.ite .ret (.bind (nesting.writeiLoop ip (fun o m _ => nests_fetch src o m) _ _ _) fun _ =>
      nesting.mono (nesting.writeiEnd ip _ _) (Nat.zero_le _)))

theorem nests_findEmpty (dp : Slot) (n off : Nat) : Nests 0 (findEmpty dp n off) := by
  induction n generalizing off with
  | zero => exact .ret
  | succ n ih =>
      exact (nests_readi dp .kernel off DIRENT).bind fun _ => .ite .panic (.ite .ret (ih _))

theorem nests_dirlink (dp : Slot) (name : List UInt8) (inum : Nat) :
    Nests 0 (dirlink dp name inum) := by
  refine .bind (nesting.dirlookup dp name) fun found => ?_
  split
  · exact (nests_iput _).bind fun _ => .ret
  · exact .bind (.doAct fun _ _ h => h) fun _ => (nests_findEmpty dp _ _).bind fun _ =>
      (nests_writei dp _ _ _).bind fun _ => .ite .panic .ret

theorem nests_namexLoop (parent : Bool) (fuel : Nat) (ip : Slot) (path last : List UInt8) :
    Nests 0 (namexLoop parent fuel ip path last) := by
  induction fuel generalizing ip path last with
  | zero => exact .ret
  | succ fuel ih =>
      unfold namexLoop
      split
      · exact .ite ((nests_iput ip).bind fun _ => .ret) .ret
      · refine ((nests_ilock ip).mono (Nat.zero_le _)).bind fun _ =>
          .bind (.doAct fun _ _ h => h) fun x => .ite ((nests_iunlockput ip).bind fun _ => .ret)
            (.ite (.bind (.doAct fun _ _ h => h) fun _ => .ret)
              (.bind (nesting.dirlookup ip _) fun next => ?_))
        split
        · exact (nests_iunlockput ip).bind fun _ => .ret
        · exact (nests_iunlockput ip).bind fun _ => ih _ _ _

theorem nests_namex (path : List UInt8) (parent : Bool) : Nests 0 (namex path parent) :=
  .bind (.ite (.doAct fun _ _ h => h) (.bind (.doAct fun _ _ h => h) fun _ =>
    .bind (.doAct fun _ _ h => h) fun _ => .ret)) fun _ => nests_namexLoop _ _ _ _ _

end Fs

end Xv6

import Xv6.Fs.File

/-! # Functions that bracket the use of buffers

The functions on blocks, inodes and directories that do not lock are put together from plain actions
and from brackets: `bread`, the use of the buffer, `brelse`. What the plain actions and the brackets
keep, all of these functions keep, whatever the disk contains. -/

namespace Xv6

open Lib

/-- Actions that neither take nor give up a buffer or the lock of an inode, nor touch user memory. -/
def Act.Plain : Act → Prop
  | .bread _ | .brelse _ | .ilockBusy _ | .iunlock _ | .iputTest _ | .iputFreed _ => False
  | .uread _ _ | .uwrite _ _ => False
  | _ => True

namespace Fs

/-- **A property of programs that brackets keep**, of programs that run with at most `k` buffers
held, and of the rest of a bracket, which has to give the buffer `n` back. -/
structure Brackets where
  Keeps : (k : Nat) → {α : Type} → FsProg α → Prop
  Closes : (n k : Nat) → {α : Type} → FsProg α → Prop
  ret : ∀ {k : Nat} {α : Type} {x : α}, Keeps k (Prog.ret x : FsProg α)
  panic : ∀ {k : Nat} {α : Type} {msg : String}, Keeps k (Prog.panic msg : FsProg α)
  plain : ∀ {k : Nat} {a : Act}, a.Plain → Keeps k (doAct a)
  bind : ∀ {k : Nat} {α β : Type} {p : FsProg α} {f : α → FsProg β}, Keeps k p →
    (∀ x, Keeps k (f x)) → Keeps k (p >>= f)
  mono : ∀ {k : Nat} {α : Type} {p : FsProg α}, Keeps 1 p → k ≤ 1 → Keeps k p
  /-- The bracket. -/
  bread : ∀ {n k : Nat} {α : Type} {f : Block → FsProg α}, k ≤ 1 →
    (∀ b, Closes n k (f b)) → Keeps k (bread n >>= f)
  /-- The use of the buffer. -/
  use : ∀ {n k : Nat} {α β : Type} {p : FsProg α} {f : α → FsProg β}, Keeps (k + 1) p →
    (∀ x, Closes n k (f x)) → Closes n k (p >>= f)
  brelse : ∀ {n k : Nat} {α : Type} {f : Unit → FsProg α}, Keeps k (f ()) →
    Closes n k (brelse n >>= f)
  stop : ∀ {n k : Nat} {α : Type} {msg : String}, Closes n k (Prog.panic msg : FsProg α)

namespace Brackets

variable (D : Brackets) {k : Nat} {α : Type}

theorem ite {c : Prop} {_ : Decidable c} {p q : FsProg α} (hp : D.Keeps k p) (hq : D.Keeps k q) :
    D.Keeps k (if c then p else q) := by
  split
  · exact hp
  · exact hq

/-- The end of a function that ends with its bracket. -/
theorem brelse_end {n : Nat} : D.Closes n k (Fs.brelse n) := D.brelse D.ret

/-! ## Blocks -/

theorem readsb : D.Keeps 1 readsb := D.bread le_rfl fun _ => D.brelse D.ret

theorem bzero (bno : Nat) : D.Keeps 1 (bzero bno) :=
  D.bread le_rfl fun _ => D.use (D.plain trivial) fun _ => D.brelse_end

theorem ballocLoop (sb : Superblock) (n b : Nat) : D.Keeps 1 (ballocLoop sb n b) := by
  induction n generalizing b with
  | zero => exact D.panic
  | succ n ih =>
      refine D.ite (D.bread le_rfl fun bp => ?_) D.panic
      split
      · exact D.use (D.plain trivial) fun _ => D.brelse D.ret
      · exact D.brelse (ih _)

theorem balloc : D.Keeps 1 balloc := D.bind D.readsb fun _ => D.ballocLoop _ _ _

theorem bfree (b : Nat) : D.Keeps 1 (bfree b) := by
  refine D.bind (D.bzero b) fun _ => D.bind D.readsb fun sb => D.bread le_rfl fun bp => ?_
  split
  · exact D.use (D.plain trivial) fun _ => D.brelse_end
  · exact D.stop

/-! ## Inodes -/

theorem iallocLoop (type : Int16) (n inum : Nat) : D.Keeps 1 (iallocLoop type n inum) := by
  induction n generalizing inum with
  | zero => exact D.panic
  | succ n ih =>
      refine D.bread le_rfl fun bp => ?_
      split
      · exact D.use (D.plain trivial) fun _ => D.brelse (D.plain trivial)
      · exact D.brelse (ih _)

theorem ialloc (type : Int16) : D.Keeps 1 (ialloc type) :=
  D.bind D.readsb fun _ => D.iallocLoop _ _ _

variable (ip : Slot)

theorem iupdate : D.Keeps 1 (iupdate ip) :=
  D.bind (D.plain trivial) fun _ => D.bread le_rfl fun _ =>
    D.use (D.plain trivial) fun _ => D.brelse_end

theorem bmapIndirect (d : Dinode) : D.Keeps 1 (bmapIndirect ip d) :=
  D.ite (D.bind D.balloc fun _ => D.bind (D.plain trivial) fun _ => D.ret) D.ret

/-- **`bmap`** holds the indirect block while it calls `balloc`. -/
theorem bmap (bn : Nat) : D.Keeps 0 (bmap ip bn) := by
  refine D.bind (D.plain trivial) fun x => ?_
  split
  · exact D.ite (D.bind (D.mono D.balloc (Nat.zero_le _)) fun _ =>
      D.bind (D.plain trivial) fun _ => D.ret) D.ret
  · refine D.ite (D.bind (D.mono (D.bmapIndirect ip x.d) (Nat.zero_le _)) fun ind =>
      D.bread (Nat.zero_le _) fun bp => ?_) D.panic
    split
    · exact D.use D.balloc fun _ => D.use (D.plain trivial) fun _ => D.brelse D.ret
    · exact D.brelse D.ret

theorem itruncDirect (is : List (Fin NDIRECT)) : D.Keeps 1 (itruncDirect ip is) := by
  induction is with
  | nil => exact D.ret
  | cons i is ih =>
      exact D.bind (D.bind (D.plain trivial) fun _ => D.ite D.ret
        (D.bind (D.bfree _) fun _ => D.plain trivial)) fun _ => ih

theorem itruncEntries (a : Block) (n j : Nat) : D.Keeps 1 (itruncEntries a n j) := by
  induction n generalizing j with
  | zero => exact D.ret
  | succ n ih => exact D.bind (D.ite D.ret (D.bfree _)) fun _ => ih _

/-- **`itrunc`** holds the indirect block while it calls `bfree`. -/
theorem itrunc : D.Keeps 0 (itrunc ip) := by
  refine D.bind (D.mono (D.itruncDirect ip _) (Nat.zero_le _)) fun _ => D.bind ?_ fun _ =>
    D.bind (D.plain trivial) fun _ => D.bind (D.plain trivial) fun _ =>
      D.mono (D.iupdate ip) (Nat.zero_le _)
  refine D.bind (D.plain trivial) fun x => D.ite D.ret (D.bread (Nat.zero_le _) fun a => ?_)
  exact D.use (D.itruncEntries a _ _) fun _ => D.brelse
    (D.bind (D.mono (D.bfree _) (Nat.zero_le _)) fun _ => D.plain trivial)

/-! ## Contents

What is stored and fetched is given by offsets below `n`. -/

section Contents

variable {n : Nat} {dst : Dst} {src : Src}

theorem store (h : ∀ addr bytes, D.Keeps k (doAct (.uwrite addr bytes))) (dst : Dst) (o : Nat)
    (bytes : List UInt8) : D.Keeps k (dst.store o bytes) := by
  cases dst with
  | kernel => exact D.ret
  | user addr => exact h _ _

theorem fetch (h : ∀ addr m, D.Keeps k (doAct (.uread addr m))) (src : Src) (o m : Nat) :
    D.Keeps k (src.fetch o m) := by
  cases src with
  | kernel bytes => exact D.ret
  | user addr => exact D.bind (h _ _) fun _ => D.ret

theorem readiLoop
    (hstore : ∀ o bytes, o + bytes.length ≤ n → D.Keeps 1 (dst.store o bytes)) (fuel tot off : Nat)
    (acc : List UInt8) : D.Keeps 0 (readiLoop ip dst n fuel tot off acc) := by
  induction fuel generalizing tot off acc with
  | zero => exact D.ret
  | succ fuel ih =>
      unfold Fs.readiLoop
      split
      · refine D.bind (D.bmap ip _) fun _ => D.bread (Nat.zero_le _) fun bp =>
          D.use (hstore _ _ ?_) fun _ => D.brelse (ih _ _ _)
        rw [length_slice]
        omega
      · exact D.ret

theorem writeiLoop (hfetch : ∀ o m, o + m ≤ n → D.Keeps 1 (src.fetch o m))
    (fuel tot off : Nat) : D.Keeps 0 (writeiLoop ip src n fuel tot off) := by
  induction fuel generalizing tot off with
  | zero => exact D.ret
  | succ fuel ih =>
      unfold Fs.writeiLoop
      split
      · exact D.bind (D.bmap ip _) fun _ => D.bread (Nat.zero_le _) fun _ =>
          D.use (hfetch _ _ (by omega)) fun _ => D.use (D.plain trivial) fun _ =>
            D.brelse (ih _ _)
      · exact D.ret

/-- The end of `writei`: the inode gets its new size. -/
theorem writeiEnd (n off : Nat) : D.Keeps 1 (do
    let x ← inode ip
    if 0 < n ∧ off > x.d.size.toNat then do
      setInode ip { x.d with size := UInt32.ofNat off }
      Fs.iupdate ip
      pure (toInt n)
    else pure (toInt n)) :=
  D.bind (D.plain trivial) fun _ => D.ite (D.bind (D.plain trivial) fun _ =>
    D.bind (D.iupdate ip) fun _ => D.ret) D.ret

theorem consolereadLoop
    (hstore : ∀ o bytes, o + bytes.length ≤ n → D.Keeps k (dst.store o bytes)) (target : Nat)
    {m : Nat} {acc : List UInt8} (hm : acc.length + m ≤ n) :
    D.Keeps k (consolereadLoop dst target m acc) := by
  induction m generalizing acc with
  | zero => exact D.ret
  | succ m ih =>
      refine D.bind (D.plain trivial) fun _ => D.ite (D.bind (D.plain trivial) fun c =>
        D.ite (D.bind (D.ite (D.plain trivial) D.ret) fun _ => D.ret)
          (D.bind (hstore _ _ ?_) fun _ => D.ite D.ret (ih ?_))) D.ret
      · rw [List.length_singleton]
        omega
      · rw [List.length_append, List.length_singleton]
        omega

theorem consolewriteLoop (hfetch : ∀ o m, o + m ≤ n → D.Keeps k (src.fetch o m)) {m i : Nat}
    (hm : i + m ≤ n) : D.Keeps k (consolewriteLoop src m i) := by
  induction m generalizing i with
  | zero => exact D.ret
  | succ m ih =>
      exact D.bind (hfetch _ _ (by omega)) fun _ => D.bind (D.plain trivial) fun _ => ih (by omega)

theorem pipereadLoop (p : Nat)
    (hstore : ∀ o bytes, o + bytes.length ≤ n → D.Keeps k (dst.store o bytes)) {m i : Nat}
    (hm : i + m ≤ n) : D.Keeps k (pipereadLoop p dst m i) := by
  induction m generalizing i with
  | zero => exact D.ret
  | succ m ih =>
      refine D.bind (D.plain trivial) fun c => ?_
      split
      · exact D.ret
      · refine D.bind (hstore _ _ ?_) fun _ => ih (by omega)
        rw [List.length_singleton]
        omega

theorem piperead (p : Nat) {n : Int}
    (hstore : ∀ o bytes, o + bytes.length ≤ n.toNat → D.Keeps k (dst.store o bytes)) :
    D.Keeps k (piperead p dst n) :=
  D.bind (D.plain trivial) fun _ => D.bind (D.plain trivial) fun _ =>
    D.ite (D.bind (D.pipereadLoop p hstore (Nat.zero_add _).le) fun _ =>
        D.bind (D.plain trivial) fun _ => D.ret)
      (D.bind (D.plain trivial) fun _ => D.ret)

theorem pipewriteLoop (p : Nat) (hfetch : ∀ o m, o + m ≤ n → D.Keeps k (src.fetch o m)) {m i : Nat}
    (hm : i + m ≤ n) : D.Keeps k (pipewriteLoop p src m i) := by
  induction m generalizing i with
  | zero => exact D.ret
  | succ m ih =>
      exact D.bind (D.plain trivial) fun _ => D.ite (D.bind (hfetch _ _ (by omega)) fun _ =>
        D.bind (D.plain trivial) fun _ => ih (by omega)) D.ret

theorem pipewrite (p : Nat) {n : Int}
    (hfetch : ∀ o m, o + m ≤ n.toNat → D.Keeps k (src.fetch o m)) :
    D.Keeps k (pipewrite p src n) :=
  D.bind (D.plain trivial) fun _ => D.bind (D.pipewriteLoop p hfetch (Nat.zero_add _).le) fun _ =>
    D.bind (D.plain trivial) fun _ => D.ret

end Contents

/-! ## Directories -/

theorem dirlookupLoop (dp : Slot) (name : List UInt8) (n bn : Nat) :
    D.Keeps 0 (dirlookupLoop dp name n bn) := by
  induction n generalizing bn with
  | zero => exact D.ret
  | succ n ih =>
      refine D.bind (D.bmap dp bn) fun _ => D.bread (Nat.zero_le _) fun bp => ?_
      split
      · exact D.brelse (D.bind (D.plain trivial) fun _ => D.ret)
      · exact D.brelse (ih _)

theorem dirlookup (dp : Slot) (name : List UInt8) : D.Keeps 0 (dirlookup dp name) :=
  D.bind (D.plain trivial) fun _ => D.ite (D.dirlookupLoop dp name _ _) D.panic

end Brackets

end Fs

end Xv6

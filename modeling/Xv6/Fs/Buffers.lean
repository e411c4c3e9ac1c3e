import Xv6.Fs.CarefulDir
import Xv6.Fs.Nesting
import Xv6.Bio.Lru
import Mathlib.Algebra.BigOperators.Fin
import Mathlib.Algebra.Order.BigOperators.Group.Finset

/-! # The buffers that a process holds

The operations of `fs.c` hold at most two buffers at a time, never ask for one that they hold, and
give all of them back. The number does not depend on what is on the disk, and so it is bounded in
every interleaving of any operations: with ten buffers and five processes, `bget` always finds one
that is not busy. -/

namespace Xv6

open Lib Fs Prog

open Function (update update_apply update_of_ne update_self)

/-- **The operations of `fs.c`.** -/
inductive FsOp
  | balloc
  | bfree (b : Nat)
  | ialloc (type : Int16)
  | iupdate (ip : Slot)
  | ilock (ip : Slot)
  | iput (ip : Slot)
  | bmap (ip : Slot) (bn : Nat)
  | itrunc (ip : Slot)
  | readi (ip : Slot) (dst : Dst) (off n : Nat)
  | writei (ip : Slot) (src : Src) (off n : Nat)
  | dirlookup (dp : Slot) (name : List UInt8)
  | dirlink (dp : Slot) (name : List UInt8) (inum : Nat)
  | namex (path : List UInt8) (nameiparent : Bool)

namespace FsOp

/-- The program of an operation, without its result. -/
def prog : FsOp → FsProg Unit
  | balloc => Fs.balloc >>= fun _ => pure ()
  | bfree b => Fs.bfree b
  | ialloc type => Fs.ialloc type >>= fun _ => pure ()
  | iupdate ip => Fs.iupdate ip
  | ilock ip => Fs.ilock ip
  | iput ip => Fs.iput ip
  | bmap ip bn => Fs.bmap ip bn >>= fun _ => pure ()
  | itrunc ip => Fs.itrunc ip
  | readi ip dst off n => Fs.readi ip dst off n >>= fun _ => pure ()
  | writei ip src off n => Fs.writei ip src off n >>= fun _ => pure ()
  | dirlookup dp name => Fs.dirlookup dp name >>= fun _ => pure ()
  | dirlink dp name inum => Fs.dirlink dp name inum >>= fun _ => pure ()
  | namex path nameiparent => Fs.namex path nameiparent >>= fun _ => pure ()

/-- What the caller sees to: it has locked the inode whose blocks the operation uses, and the
current directory is a reference that counts. -/
def Ready (p : Pid) (s : FsState) : FsOp → Prop
  | bmap ip _ => s.InUse ip
  | itrunc ip => s.InUse ip
  | readi ip _ _ _ => s.InUse ip
  | writei ip _ _ _ => s.InUse ip
  | dirlookup dp _ => s.InUse dp
  | dirlink dp _ _ => s.InUse dp
  | namex _ _ => ∀ ip, s.cwd p = some ip → 0 < (s.icache ip).ref
  | _ => True

/-- **Every operation is careful with buffers** and returns without one. -/
theorem guarded {sb : Superblock} {p : Pid} {s : FsState} (h : Sound (EntriesIn sb) sb p s)
    (op : FsOp) (hop : op.Ready p s) : Guarded p op.prog (fun _ t => Only p t none) s := by
  have hzero : EntriesIn sb Bytes.zero := by
    obtain ⟨own, ho⟩ := h.owned
    exact entriesIn_zero (Nat.lt_of_le_of_lt (Nat.zero_le _) ho.root)
  cases op with
  | balloc =>
      exact guarded_bind.mpr (guarded_balloc rfl h.idle (by nofun) (by nofun) fun _ _ => h.idle)
  | bfree b => exact guarded_bfree rfl h.idle (by nofun) (by nofun) (by nofun) h.idle
  | ialloc type =>
      refine guarded_bind.mpr (guarded_bind.mpr (guarded_readsb h.idle (by nofun) ?_))
      exact guarded_iallocLoop h.idle fun _ t ht m hm => h.idle m (by rwa [ht] at hm)
  | iupdate ip => exact guarded_iupdate h.idle h.idle
  | ilock ip => exact (guarded_ilock h).mono fun _ _ ht => ht.1.idle
  | iput ip => exact (guarded_iput h).mono fun _ _ ht => ht.idle
  | bmap ip bn => exact (guarded_bmap_mapped hzero h hop).bind fun _ _ ht => ht.1.idle
  | itrunc ip => exact (guarded_itrunc h hop).mono fun _ _ ht => ht.1.idle
  | readi ip dst off n => exact (guarded_readi hzero dst h hop).bind fun _ _ ht => ht.1.idle
  | writei ip src off n => exact (guarded_writei src h.forget hop).bind fun _ _ ht => ht.1.idle
  | dirlookup dp name => exact (guarded_dirlookup name h hop).bind fun _ _ ht => ht.1.idle
  | dirlink dp name inum => exact (guarded_dirlink name inum h hop).bind fun _ _ ht => ht
  | namex path nameiparent => exact (guarded_namex h hop).bind fun _ _ ht => ht.idle

end FsOp

/-! ## What a single action does to the buffers -/

variable {s t : FsState}

/-- Only `bread` and `brelse` change the flags of buffers. -/
theorem Act.buf_step {p : Pid} {a : Act} {b : a.Resp} (h : a.step p s b t)
    (hread : ∀ n, a ≠ .bread n) (hrelse : ∀ n, a ≠ .brelse n) : t.buf = s.buf := by
  have hbuf {u : FsState} (hu : t = u) (h : u.buf = s.buf) : t.buf = s.buf := by rw [hu, h]
  cases a with
  | bread n => exact absurd rfl (hread n)
  | brelse n => exact absurd rfl (hrelse n)
  | iget i => exact FsState.buf_iget h
  | iputTest ip =>
      have h' : s.iputTest p ip = some (b, t) := h
      unfold FsState.iputTest at h'
      split at h'
      · split at h'
        · cases h'
        · cases h'
          rfl
      · cases h'
        rfl
  | filealloc =>
      have h' : (b, t) = s.filealloc := h
      unfold FsState.filealloc at h'
      split at h' <;> cases h' <;> rfl
  | filecloseRef f =>
      have h' : s.filecloseRef f = some (b, t) := h
      unfold FsState.filecloseRef at h'
      split at h'
      · cases h'
      · split at h' <;> cases h' <;> rfl
  | bwrite n data => exact hbuf h.2 rfl
  | ilockBusy ip => exact hbuf h.2.2 rfl
  | iunlock ip => exact hbuf h.2.2 rfl
  | filedup f => exact hbuf h.2 rfl
  | inode ip => exact hbuf h.2 rfl
  | file f => exact hbuf h.2 rfl
  | ofile fd => exact hbuf h.2 rfl
  | cwd => exact hbuf h.2 rfl
  | _ => exact hbuf h rfl

/-! ## A single process -/

/-- **Where a process stands in an operation**: it holds at most two buffers, it does not ask for
one that it holds, and it has none when it returns. -/
structure Tidy (p : Pid) (q : FsProg Unit) (t : FsState) : Prop where
  two : ∃ x y, ∀ n, t.buf n = some p → n = x ∨ n = y
  asks : ∀ n k, q = .act (.bread n) k → t.buf n ≠ some p
  done : ∀ u, q = .ret u → ∀ n, t.buf n ≠ some p

/-- A careful action leaves at most two buffers. -/
theorem two_of_step {p : Pid} {a : Act} {b : a.Resp} (hcare : a.Careful p s) (h : a.step p s b t)
    (htwo : ∃ x y, ∀ n, s.buf n = some p → n = x ∨ n = y) :
    ∃ x y, ∀ n, t.buf n = some p → n = x ∨ n = y := by
  by_cases hread : ∃ m, a = .bread m
  · obtain ⟨m, rfl⟩ := hread
    obtain ⟨-, x, hx⟩ := hcare
    obtain ⟨-, -, rfl⟩ := h
    refine ⟨x, m, fun n hn => ?_⟩
    by_cases hnm : n = m
    · exact .inr hnm
    · exact .inl (hx n ((update_of_ne hnm ..).symm.trans hn))
  · obtain ⟨x, y, hxy⟩ := htwo
    refine ⟨x, y, fun n hn => hxy n ?_⟩
    by_cases hrelse : ∃ m, a = .brelse m
    · obtain ⟨m, rfl⟩ := hrelse
      obtain ⟨-, rfl⟩ := h
      by_cases hnm : n = m
      · subst hnm
        exact absurd ((FsState.buf_setBuf ..).symm.trans hn) (by nofun)
      · exact (update_of_ne hnm ..).symm.trans hn
    · rwa [Act.buf_step h (fun m hm => hread ⟨m, hm⟩) fun m hm => hrelse ⟨m, hm⟩] at hn

/-- A careful program is tidy at every point of its execution. -/
theorem tidy_of_guarded {p : Pid} {q q' : FsProg Unit} (hreach : Reaches (Act.step p) q s q' t)
    (hq : Guarded p q (fun _ t => Only p t none) s)
    (htwo : ∃ x y, ∀ n, s.buf n = some p → n = x ∨ n = y) : Tidy p q' t := by
  induction hreach with
  | refl q s =>
      refine ⟨htwo, ?_, ?_⟩
      · rintro n k rfl
        exact hq.1.1
      · rintro u rfl n hn
        exact absurd (hq n hn) (by nofun)
  | act hstep hrest ih => exact ih (hq.2 _ _ hstep) (two_of_step hq.1 hstep htwo)

/-! ## All processes and the buffer cache -/

theorem FsOp.nests (op : FsOp) : Nests 0 op.prog := by
  cases op with
  | balloc => exact .bind (nesting.mono nesting.balloc (Nat.zero_le _)) fun _ => .ret
  | bfree b => exact nesting.mono (nesting.bfree b) (Nat.zero_le _)
  | ialloc type => exact .bind (nesting.mono (nesting.ialloc type) (Nat.zero_le _)) fun _ => .ret
  | iupdate ip => exact nesting.mono (nesting.iupdate ip) (Nat.zero_le _)
  | ilock ip => exact (nests_ilock ip).mono (Nat.zero_le _)
  | iput ip => exact nests_iput ip
  | bmap ip bn => exact .bind (nesting.bmap ip bn) fun _ => .ret
  | itrunc ip => exact nesting.itrunc ip
  | readi ip dst off n => exact (nests_readi ip dst off n).bind fun _ => .ret
  | writei ip src off n => exact (nests_writei ip src off n).bind fun _ => .ret
  | dirlookup dp name => exact .bind (nesting.dirlookup dp name) fun _ => .ret
  | dirlink dp name inum => exact (nests_dirlink dp name inum).bind fun _ => .ret
  | namex path nameiparent => exact (nests_namex path nameiparent).bind fun _ => .ret

/-- What an action does to the buffer cache: `bread` calls `bget` and reads the sector if need be,
`bwrite` and `brelse` are called for the busy buffer of the sector. -/
def Act.pool : Act → FsState → Bio.Bcache → Bio.Bcache → Prop
  | .bread n, s, c, c' => ∃ i c₁, Bio.bget c ROOTDEV n = .got i c₁ ∧
      c' = if (c₁.buf i).valid then c₁ else c₁.read s.disk i
  | .bwrite n data, _, c, c' => ∃ i, (c.buf i).busy = true ∧ (c.buf i).sector = n ∧
      c' = c.setBuf i { c.buf i with valid := true, dirty := false, data := data }
  | .brelse n, _, c, c' => ∃ i, (c.buf i).busy = true ∧ (c.buf i).sector = n ∧
      Bio.brelse c i = some c'
  | _, _, c, c' => c' = c

/-- **Processes in `fs.c`**: any process may begin any operation at any time, and the actions are
interleaved. -/
def opRules : Rules Pid Act (FsState × Bio.Bcache) Act.Resp where
  start _ _ x := ∃ op : FsOp, x = op.prog
  step p a σ b τ := a.step p σ.1 b τ.1 ∧ a.pool σ.1 σ.2 τ.2
  halt _ _ _ _ := False

/-- The busy buffers of the cache are those that processes hold. -/
structure Pooled (s : FsState) (c : Bio.Bcache) : Prop where
  threaded : Bio.Threaded c
  held : ∀ i, (c.buf i).busy = true → s.buf (c.buf i).sector ≠ none
  once : ∀ i j, (c.buf i).busy = true → (c.buf j).busy = true →
    (c.buf i).sector = (c.buf j).sector → i = j

namespace Pooled

variable {s t : FsState} {c c' : Bio.Bcache}

/-- The contents of a buffer change. -/
theorem refill (h : Pooled s c) (i : Bio.BufId) {x : Bio.Buf} (hbusy : x.busy = (c.buf i).busy)
    (hsector : x.sector = (c.buf i).sector) (ht : t.buf = s.buf) : Pooled t (c.setBuf i x) := by
  have hsame (j : Bio.BufId) : ((c.setBuf i x).buf j).busy = (c.buf j).busy ∧
      ((c.setBuf i x).buf j).sector = (c.buf j).sector := by
    by_cases hj : j = i
    · rw [hj, Bio.Bcache.setBuf_buf_self]
      exact ⟨hbusy, hsector⟩
    · rw [Bio.Bcache.setBuf_buf_of_ne _ _ hj]
      exact ⟨rfl, rfl⟩
  refine ⟨h.threaded, fun j hj => ?_, fun j j' hj hj' heq => ?_⟩
  · rw [(hsame j).2, ht]
    exact h.held j ((hsame j).1.symm.trans hj)
  · rw [(hsame j).2, (hsame j').2] at heq
    exact h.once j j' ((hsame j).1.symm.trans hj) ((hsame j').1.symm.trans hj') heq

/-- `bread` of a sector that nobody holds. -/
theorem bget (h : Pooled s c) {p : Pid} {n : Nat} {i : Bio.BufId} (hn : s.buf n = none)
    (hget : Bio.bget c ROOTDEV n = .got i c') : Pooled (s.setBuf n (some p)) c' := by
  obtain ⟨-, hcases⟩ := Bio.bget_got_cases h.threaded hget
  obtain ⟨x, hbusy, hsector, rfl⟩ : ∃ x : Bio.Buf, x.busy = true ∧ x.sector = n ∧
      c' = c.setBuf i x := by
    rcases hcases with ⟨-, hs, rfl⟩ | ⟨-, rfl⟩
    · exact ⟨{ c.buf i with busy := true }, rfl, hs, rfl⟩
    · exact ⟨⟨true, false, false, ROOTDEV, n, (c.buf i).data⟩, rfl, rfl, rfl⟩
  have hself := Bio.Bcache.setBuf_buf_self c i x
  have hother {j : Bio.BufId} (hj : j ≠ i) := Bio.Bcache.setBuf_buf_of_ne c x hj
  -- the sector of another busy buffer is held, so it is not this one
  have hne {j : Bio.BufId} (hj : (c.buf j).busy = true) : (c.buf j).sector ≠ n := fun heq =>
    h.held j hj (heq ▸ hn)
  refine ⟨h.threaded, fun j hj => ?_, fun j j' hj hj' heq => ?_⟩
  · by_cases hji : j = i
    · rw [hji, hself, hsector, FsState.buf_setBuf]
      nofun
    · rw [hother hji] at hj ⊢
      rw [show (s.setBuf n (some p)).buf _ = s.buf _ from update_of_ne (hne hj) ..]
      exact h.held j hj
  · by_cases hji : j = i
    · by_cases hji' : j' = i
      · exact hji.trans hji'.symm
      · rw [hji, hself, hother hji', hsector] at heq
        rw [hother hji'] at hj'
        exact absurd heq.symm (hne hj')
    · rw [hother hji] at hj heq
      by_cases hji' : j' = i
      · rw [hji', hself, hsector] at heq
        exact absurd heq (hne hj)
      · rw [hother hji'] at hj' heq
        exact h.once j j' hj hj' heq

/-- `brelse` of a busy buffer. -/
theorem brelse (h : Pooled s c) {i : Bio.BufId} (hbusy : (c.buf i).busy = true)
    (hrelse : Bio.brelse c i = some c') : Pooled (s.setBuf (c.buf i).sector none) c' := by
  obtain ⟨-, hfree, hother⟩ := Bio.brelse_busy hrelse
  have hne {j : Bio.BufId} (hj : (c'.buf j).busy = true) : j ≠ i := fun heq => by
    rw [heq, hfree] at hj
    cases hj
  refine ⟨h.threaded.brelse hrelse, fun j hj => ?_, fun j j' hj hj' heq => ?_⟩
  · have hji := hne hj
    rw [hother j hji] at hj ⊢
    have hsector : (c.buf j).sector ≠ (c.buf i).sector := fun heq => hji (h.once j i hj hbusy heq)
    rw [show (s.setBuf _ none).buf _ = s.buf _ from update_of_ne hsector ..]
    exact h.held j hj
  · rw [hother j (hne hj), hother j' (hne hj')] at heq
    rw [hother j (hne hj)] at hj
    rw [hother j' (hne hj')] at hj'
    exact h.once j j' hj hj' heq

/-- An action that does not call `bget` or `brelse`. -/
theorem off (h : Pooled s c) {a : Act} (hread : ∀ n, a ≠ .bread n) (hrelse : ∀ n, a ≠ .brelse n)
    (ht : t.buf = s.buf) (hc : a.pool s c c') : Pooled t c' := by
  cases a with
  | bread n => exact absurd rfl (hread n)
  | brelse n => exact absurd rfl (hrelse n)
  | bwrite n data =>
      obtain ⟨i, -, -, rfl⟩ := hc
      exact h.refill i rfl rfl ht
  | _ =>
      obtain rfl : c' = c := hc
      exact ⟨h.threaded, fun j hj => by rw [ht]; exact h.held j hj, h.once⟩

end Pooled

/-- The buffers of a process are those on a list. -/
structure Tallied (s : FsState) (p : Pid) (l : List Nat) : Prop where
  held : ∀ n, s.buf n = some p ↔ n ∈ l
  nodup : l.Nodup
  two : l.length ≤ 2

namespace Tallied

variable {s t : FsState} {p : Pid} {l : List Nat} {n : Nat}

theorem congr (h : Tallied s p l) (ht : t.buf = s.buf) : Tallied t p l :=
  ⟨fun m => by rw [ht]; exact h.held m, h.nodup, h.two⟩

/-- A buffer of another process. -/
theorem other (h : Tallied s p l) {o : Option Pid} (hn : s.buf n ≠ some p) (ho : o ≠ some p) :
    Tallied (s.setBuf n o) p l := by
  refine ⟨fun m => ?_, h.nodup, h.two⟩
  show update s.buf n o m = some p ↔ _
  rw [← h.held, update_apply]
  split
  · next hm =>
      rw [hm]
      exact ⟨fun h => absurd h ho, fun h => absurd h hn⟩
  · exact .rfl

theorem bread (h : Tallied s p l) (hn : s.buf n = none) (hone : l.length ≤ 1) :
    n ∉ l ∧ Tallied (s.setBuf n (some p)) p (n :: l) := by
  have hnot : n ∉ l := fun hmem => by
    rw [(h.held n).mpr hmem] at hn
    cases hn
  refine ⟨hnot, fun m => ?_, List.nodup_cons.mpr ⟨hnot, h.nodup⟩, Nat.succ_le_succ hone⟩
  show update s.buf n (some p) m = some p ↔ _
  rw [List.mem_cons, ← h.held, update_apply]
  split
  · simp [*]
  · simp [*]

theorem brelse (h : Tallied s p l) : Tallied (s.setBuf n none) p (l.erase n) := by
  refine ⟨fun m => ?_, h.nodup.erase n, List.length_erase_le.trans h.two⟩
  show update s.buf n none m = some p ↔ _
  rw [h.nodup.mem_erase_iff, ← h.held, update_apply]
  split
  · simp [*]
  · simp [*]

/-- A list of at most two numbers. -/
theorem two_buffers (h : Tallied s p l) : ∃ x y, ∀ n, s.buf n = some p → n = x ∨ n = y := by
  obtain ⟨hheld, -, htwo⟩ := h
  match l, htwo with
  | [], _ => exact ⟨0, 0, fun n hn => absurd ((hheld n).mp hn) List.not_mem_nil⟩
  | [x], _ => exact ⟨x, x, fun n hn => .inl (List.mem_singleton.mp ((hheld n).mp hn))⟩
  | [x, y], _ => exact ⟨x, y, fun n hn => by simpa using (hheld n).mp hn⟩

end Tallied

/-- **The proof system**: the resource of a process is the list of its buffers. -/
def poolLogic : Logic opRules (List Nat) where
  spec _ := tally
  pan _ := True
  idle _ l := l = []
  awake _ _ := True
  inv σ ls := Pooled σ.1 σ.2 ∧ ∀ p, Tallied σ.1 p (ls p)
  start_awake _ := trivial
  start_wp := by
    rintro s p x l ⟨op, rfl⟩ rfl
    exact op.nests [] (Nat.le_refl _)
  step_awake _ _ _ _ := trivial
  step_inv := by
    rintro ⟨s, c⟩ p a b ⟨t, c'⟩ Q ls ⟨hpool, htally⟩ - hspec ⟨hstep, hc⟩
    have hoff (l : List Nat) (q : Pid) (hq : q ≠ p) : update ls p l q = ls q :=
      update_of_ne hq ..
    by_cases hread : ∃ n, a = .bread n
    · obtain ⟨n, rfl⟩ := hread
      obtain ⟨hn, -, rfl⟩ := hstep
      obtain ⟨i, c₁, hget, rfl⟩ := hc
      obtain ⟨hnot, hmine⟩ := (htally p).bread hn hspec.1
      refine ⟨update ls p (n :: ls p), ?_, ⟨?_, fun q => ?_⟩, fun q hq => .inl (hoff _ q hq)⟩
      · rw [update_self]
        exact hspec.2 hnot b
      · have hgot := hpool.bget (p := p) hn hget
        dsimp only
        split
        · exact hgot
        · exact hgot.refill i rfl rfl rfl
      · by_cases hq : q = p
        · rw [hq, update_self]
          exact hmine
        · rw [hoff _ q hq]
          exact (htally q).other (by rw [hn]; nofun) fun heq => hq (Option.some.inj heq).symm
    · by_cases hrelse : ∃ n, a = .brelse n
      · obtain ⟨n, rfl⟩ := hrelse
        obtain ⟨-, rfl⟩ := hstep
        obtain ⟨i, hbusy, rfl, hfree⟩ := hc
        have howner := ((htally p).held _).mpr hspec.1
        refine ⟨update ls p ((ls p).erase (c.buf i).sector), ?_,
          ⟨hpool.brelse hbusy hfree, fun q => ?_⟩, fun q hq => .inl (hoff _ q hq)⟩
        · rw [update_self]
          exact hspec.2
        · by_cases hq : q = p
          · rw [hq, update_self]
            exact (htally p).brelse
          · rw [hoff _ q hq]
            exact (htally q).other (fun heq => hq (Option.some.inj (heq.symm.trans howner)))
              (by nofun)
      · have hbuf := Act.buf_step hstep (fun n hn => hread ⟨n, hn⟩) fun n hn => hrelse ⟨n, hn⟩
        refine ⟨ls, ?_, ⟨?_, fun q => (htally q).congr hbuf⟩, fun q _ => .inl rfl⟩
        · exact tally_off (fun n hn => hread ⟨n, hn⟩) (fun n hn => hrelse ⟨n, hn⟩) hspec b
        · exact hpool.off (fun n hn => hread ⟨n, hn⟩) (fun n hn => hrelse ⟨n, hn⟩) hbuf hc
  halt_awake h := h.elim
  halt_inv _ _ _ h := h.elim

/-- `bget` finds a buffer as long as fewer than `NBUF` are busy. -/
theorem Pooled.bget_ne_noBuffers {s : FsState} {c : Bio.Bcache} (h : Pooled s c)
    {ls : Pid → List Nat} (hls : ∀ p, Tallied s p (ls p)) (hsum : ∑ p, (ls p).length < NBUF)
    (n : Nat) : Bio.bget c ROOTDEV n ≠ .noBuffers := by
  intro hnone
  have hall : ∀ i, (c.buf i).busy = true := Bio.busy_of_noBuffers h.threaded hnone
  have howner (i : Bio.BufId) : ∃ p, (c.buf i).sector ∈ ls p := by
    obtain ⟨p, hp⟩ := Option.ne_none_iff_exists'.mp (h.held i (hall i))
    exact ⟨p, ((hls p).held _).mp hp⟩
  -- the sectors of the buffers are different, and each is on the list of a process
  have hcard : (Finset.univ.image fun i => (c.buf i).sector).card = NBUF := by
    rw [Finset.card_image_of_injective _ fun i j => h.once i j (hall i) (hall j)]
    exact Finset.card_fin NBUF
  have hsub : (Finset.univ.image fun i => (c.buf i).sector) ⊆
      Finset.univ.biUnion fun p => (ls p).toFinset := by
    refine Finset.image_subset_iff.mpr fun i _ => ?_
    rw [Finset.mem_biUnion]
    obtain ⟨p, hp⟩ := howner i
    exact ⟨p, Finset.mem_univ p, List.mem_toFinset.mpr hp⟩
  have hle : ∑ p, (ls p).toFinset.card ≤ ∑ p, (ls p).length :=
    Finset.sum_le_sum fun p _ => List.toFinset_card_le _
  have hbusy := (Finset.card_le_card hsub).trans (Finset.card_biUnion_le.trans hle)
  rw [hcard] at hbusy
  omega

/-- Five processes of which one asks for a buffer hold at most nine. -/
theorem sum_length_lt {ls : Pid → List Nat} {I : Finset Pid} (hI : I.card ≤ 5)
    (hout : ∀ q, q ∉ I → ls q = []) (htwo : ∀ q, (ls q).length ≤ 2) {p : Pid} (hp : p ∈ I)
    (hone : (ls p).length ≤ 1) : ∑ q, (ls q).length < NBUF := by
  have hsum : ∑ q, (ls q).length = ∑ q ∈ I, (ls q).length :=
    (Finset.sum_subset (Finset.subset_univ I) fun q _ hq => by rw [hout q hq]; rfl).symm
  have hrest : ∑ q ∈ I.erase p, (ls q).length ≤ (I.erase p).card * 2 := by
    rw [← smul_eq_mul]
    exact Finset.sum_le_card_nsmul _ _ _ fun q _ => htwo q
  rw [Finset.card_erase_of_mem hp] at hrest
  rw [hsum, ← Finset.add_sum_erase _ _ hp, NBUF]
  omega

/-- The owners of the blocks of a disk without files. -/
def ownersInUse (k n : Nat) : Owner := if n < 8 * k ∨ BPB ≤ n then .system else .free

theorem bit_diskInUse {k n : Nat} (hk : k ≤ BSIZE) (hn : n < BPB) :
    bit (diskInUse k) ⟨1024, 995, 200⟩ n = decide (n < 8 * k) := by
  have hblock : BBLOCK n 200 = 28 := by
    rw [BBLOCK, Nat.div_eq_of_lt hn]
    rfl
  have hlen : (List.replicate k (255 : UInt8)).length = k := List.length_replicate
  rw [bit, hblock, Nat.mod_eq_of_lt hn]
  show bitAt (Bytes.zero.blit 0 (List.replicate k 255)) n = _
  rw [bitAt, Bytes.byte_blit _ (by rwa [hlen, Nat.zero_add])]
  by_cases hlt : n < 8 * k
  · have hput : put (Bytes.zero : Block).byte 0 (List.replicate k 255) (0 + n / 8) = 255 := by
      rw [put_of_mem _ _ _ (by rw [hlen]; omega) 255, List.getD_replicate _ (by omega)]
    have hones : ∀ i < 8, Nat.testBit 255 i = true := by decide
    rw [Nat.zero_add] at hput
    rw [hput, decide_eq_true hlt]
    exact hones _ (Nat.mod_lt _ (by decide))
  · rw [put_of_notMem _ _ _ (.inr (by rw [hlen]; omega)), Bytes.byte_zero, decide_eq_false hlt]
    exact Nat.zero_testBit _

/-- The disk of `mkfs` before it puts files on it. -/
theorem owned_diskInUse : Owned (EntriesIn ⟨1024, 995, 200⟩) (ownersInUse 4) ⟨1024, 995, 200⟩ none
    (diskInUse 4) (FsState.boot (diskInUse 4)).icache := by
  have hcached (ip : Slot) (h : 0 < ((FsState.boot (diskInUse 4)).icache ip).ref) :
      ip = firstSlot := by
    by_contra hne
    have hcache : (FsState.boot (diskInUse 4)).icache ip = ⟨0, 0, none, false, Dinode.blank 0⟩ :=
      if_neg hne
    rw [hcache] at h
    exact Int.lt_irrefl 0 h
  have hscan (n : Nat) : Scanned ⟨1024, 995, 200⟩ n ↔ n < BPB := by
    show n / 4096 * 4096 < 1024 ↔ n < 4096
    omega
  refine ⟨superblock_diskInUse 4, ?_, ?_, ?_, ?_, ?_, by decide, ?_, ?_, ?_⟩
  · intro n hn
    exact if_pos (.inl (Nat.lt_of_lt_of_le hn (by decide)))
  · intro b hb
    rw [BBLOCK, Nat.div_eq_of_lt ((hscan b).mp hb)]
    rfl
  · intro n hn
    rw [hscan]
    by_contra hle
    exact hn (if_pos (.inr (Nat.le_of_not_lt hle)))
  · intro n hn
    rw [hscan] at hn
    rw [bit_diskInUse (by decide) hn, ownersInUse, decide_eq_false_iff_not]
    constructor
    · intro hge
      exact if_neg (by omega)
    · intro hfree hlt
      rw [if_pos (.inl hlt)] at hfree
      cases hfree
  · intro n hn
    have hlt : ¬ n < 32 := fun hlt => by
      rw [ownersInUse, if_pos (.inl hlt)] at hn
      cases hn
    rw [diskInUse, if_neg (by omega), if_neg (by omega)]
  · intro ip hip
    rw [hcached ip hip]
    decide
  · intro ip ip' hip hip' _
    rw [hcached ip hip, hcached ip' hip']
  · rintro i d (⟨hi, -, htype⟩ | ⟨href, hvalid⟩)
    · -- the blocks of the inodes are zero, so no inode is allocated
      have hlt := iblock_lt hi
      have hzero : diskInUse 4 (IBLOCK i) = Bytes.zero := by
        have hne : IBLOCK i ≠ 1 := Nat.ne_of_gt (Nat.le_add_left 2 (i / IPB))
        rw [diskInUse, if_neg hne,
          if_neg (Nat.ne_of_lt (Nat.lt_of_lt_of_le hlt (by decide)))]
      rw [dinodeOf, hzero] at htype
      exact absurd (by simp [dinodeAt, dinodeIn, le16]) htype
    · obtain rfl := hcached _ href
      exact absurd hvalid (by decide)

/-- **The buffers of the operations of `fs.c`.** From a state with block ownership, an operation
holds at most two buffers, never asks for one that it holds, and returns without any. In every
interleaving of operations a process holds at most two buffers, and none between its operations; and
with at most five processes in operations, `bget` finds a buffer. -/
theorem fs_buffers_bounded :
    (∀ (sb : Superblock) (own : Nat → Owner) (p : Pid) (s : FsState),
      Owned (EntriesIn sb) own sb none s.disk s.icache → (∀ n, s.buf n ≠ some p) →
      ∀ op : FsOp, op.Ready p s →
        ∀ q t, Reaches (Act.step p) op.prog s q t → Tidy p q t) ∧
    ∀ (s : FsState) (c : Bio.Bcache), (∀ n, s.buf n = none) → Bio.Threaded c →
      (∀ i, (c.buf i).busy = false) →
      ∀ (tr : List (Threads Pid Act (FsState × Bio.Bcache) Act.Resp × TEvent Pid))
        (t : Threads Pid Act (FsState × Bio.Bcache) Act.Resp),
        Exec (Threads.Step opRules) ⟨(s, c), fun _ => none⟩ tr t →
        (∀ p, ∃ x y, ∀ n, t.st.1.buf n = some p → n = x ∨ n = y) ∧
        (∀ p, t.prog p = none → ∀ n, t.st.1.buf n ≠ some p) ∧
        ∀ I : Finset Pid, I.card ≤ 5 → (∀ q, t.prog q ≠ none → q ∈ I) →
          ∀ p n k, t.prog p = some (.act (.bread n) k) →
            Bio.bget t.st.2 ROOTDEV n ≠ .noBuffers := by
  constructor
  · intro sb own p s ho hnone op hop q t hreach
    have hidle : Only p s none := fun m hm => absurd hm (hnone m)
    exact tidy_of_guarded hreach (op.guarded ⟨⟨own, ho⟩, hidle⟩ hop)
      ⟨0, 0, fun n hn => absurd hn (hnone n)⟩
  · intro s c hs hc hfree tr t hrun
    have hstart : poolLogic.Inv ⟨(s, c), fun _ => none⟩ := by
      refine ⟨fun _ => [], ⟨⟨hc, ?_, ?_⟩, fun p => ⟨fun n => ?_, List.nodup_nil, Nat.zero_le _⟩⟩,
        fun _ => rfl⟩
      · exact fun i hi => absurd hi (by rw [hfree i]; nofun)
      · exact fun i _ hi => absurd hi (by rw [hfree i]; nofun)
      · rw [hs n]
        exact ⟨nofun, nofun⟩
    obtain ⟨ls, ⟨hpool, htally⟩, hserves⟩ := hstart.exec hrun
    have hout (p : Pid) (hp : t.prog p = none) : ls p = [] :=
      (Logic.serves_of_none hp).mp (hserves p)
    refine ⟨fun p => ?_, fun p hp n hn => ?_, fun I hI hin p n k hp => ?_⟩
    · exact (htally p).two_buffers
    · have hmem := ((htally p).held n).mp hn
      rw [hout p hp] at hmem
      exact absurd hmem List.not_mem_nil
    · have hasks := ((Logic.serves_of_some hp).mp (hserves p)).2
      refine hpool.bget_ne_noBuffers htally (sum_length_lt hI (fun q hq => hout q ?_)
        (fun q => (htally q).two) (hin p (by rw [hp]; nofun)) hasks.1) n
      by_contra hq'
      exact hq (hin q hq')

/-- The operations after `userinit`, on a disk without files. -/
theorem fs_buffers_bounded_at_boot :
    (Owned (EntriesIn ⟨1024, 995, 200⟩) (ownersInUse 4) ⟨1024, 995, 200⟩ none
        (diskInUse 4) (FsState.boot (diskInUse 4)).icache ∧
      (∀ n, (FsState.boot (diskInUse 4)).buf n = none) ∧
      (FsOp.namex [47] false).Ready initproc (FsState.boot (diskInUse 4)) ∧
      ∀ q t, Reaches (Act.step initproc) (FsOp.namex [47] false).prog (FsState.boot (diskInUse 4))
        q t → Tidy initproc q t) ∧
    Bio.Threaded Bio.binit ∧ (∀ i, (Bio.binit.buf i).busy = false) ∧
    ∀ tr t, Exec (Threads.Step opRules)
      ⟨(FsState.boot (diskInUse 4), Bio.binit), fun _ => none⟩ tr t →
      t.prog initproc = none → ∀ n, t.st.1.buf n ≠ some initproc := by
  have hready : (FsOp.namex [47] false).Ready initproc (FsState.boot (diskInUse 4)) := by
    intro ip hip
    obtain rfl : firstSlot = ip := Option.some.inj hip
    decide
  have hfree : ∀ i, (Bio.binit.buf i).busy = false := by decide
  refine ⟨⟨owned_diskInUse, fun _ => rfl, hready, ?_⟩, Bio.threaded_binit, hfree, ?_⟩
  · exact fs_buffers_bounded.1 _ _ initproc _ owned_diskInUse (by nofun) _ hready
  · intro tr t hrun
    exact (fs_buffers_bounded.2 _ _ (fun _ => rfl) Bio.threaded_binit hfree tr t hrun).2.1 initproc

/-! ## The blocks of the files -/

/-- **A block belongs to one place of one inode**: two copies of inodes that store a block number
store it for the same inode, at the same place; its bit is set, and it lies behind the inodes. -/
def Unshared (sb : Superblock) (s : FsState) : Prop :=
  ∀ i d pl, Copy sb none s.disk s.icache i d → d.stored s.disk pl ≠ 0 →
    (∀ j e pl', Copy sb none s.disk s.icache j e → e.stored s.disk pl' = d.stored s.disk pl →
      j = i ∧ pl' = pl) ∧
    bit s.disk sb (d.stored s.disk pl) = true ∧ sb.ninodes / IPB + 3 ≤ d.stored s.disk pl

/-- The operations on the blocks of an inode. -/
def FsOp.OnFile : FsOp → Prop
  | ilock _ | iput _ | bmap .. | itrunc _ | readi .. | writei .. => True
  | _ => False

/-- The process performs an operation to its end. -/
def FileStep (p : Pid) (s : FsState) (op : FsOp) (t : FsState) : Prop :=
  op.OnFile ∧ op.Ready p s ∧ Reaches (Act.step p) op.prog s (.ret ()) t

section

variable {sb : Superblock} {p : Pid} {s t : FsState}

theorem Guarded.of_reaches {q : FsProg Unit} {Q : Unit → FsState → Prop} (h : Guarded p q Q s)
    (hreach : Reaches (Act.step p) q s (.ret ()) t) : Q () t := by
  generalize hend : Prog.ret () = q' at hreach
  induction hreach with
  | refl =>
      subst hend
      exact h
  | act hstep _ ih => exact ih (h.2 _ _ hstep) hend

/-- **An operation keeps the owners of the blocks.** -/
theorem Fs.Sound.fileStep {op : FsOp} (h : Sound (fun _ => True) sb p s) (hstep : FileStep p s op t) :
    Sound (fun _ => True) sb p t := by
  obtain ⟨hfile, hop, hreach⟩ := hstep
  refine Guarded.of_reaches (Q := fun _ => Sound (fun _ => True) sb p) ?_ hreach
  cases op with
  | ilock ip => exact (guarded_ilock h).mono fun _ _ ht => ht.1
  | iput ip => exact guarded_iput h
  | bmap ip bn => exact (guarded_bmap_mapped trivial h hop).bind fun _ _ ht => ht.1.sound
  | itrunc ip => exact (guarded_itrunc h hop).mono fun _ _ ht => ht.1
  | readi ip dst off n => exact (guarded_readi trivial dst h hop).bind fun _ _ ht => ht.1
  | writei ip src off n => exact (guarded_writei src h hop).bind fun _ _ ht => ht.1
  | _ => exact hfile.elim

theorem Fs.Sound.unshared {V : Block → Prop} (h : Sound V sb p s) : Unshared sb s := by
  obtain ⟨own, ho⟩ := h.owned
  intro i d pl hcopy hne
  have hown := (ho.lists i d hcopy).stored pl hne
  refine ⟨fun j e pl' hcopy' heq => ?_, ?_, ?_⟩
  · have hown' := (ho.lists j e hcopy').stored pl' (heq ▸ hne)
    rw [heq, hown] at hown'
    cases hown'
    exact ⟨rfl, rfl⟩
  · rw [← Bool.not_eq_false, ho.bits _ (ho.scanned _ (by rw [hown]; nofun)), hown]
    nofun
  · by_contra hlt
    cases hown.symm.trans (ho.system _ (Nat.lt_of_not_le hlt))

/-- **No block is shared after any sequence of operations** on files, whatever is read and written,
and whether blocks run out or not. -/
theorem blocks_unshared {own : Nat → Owner} {tr : List (FsState × FsOp)}
    (h : Owned (fun _ => True) own sb none s.disk s.icache)
    (hidle : ∀ n, s.buf n ≠ some p) (hrun : Exec (FileStep p) s tr t) : Unshared sb t :=
  (hrun.invariant (P := Sound (fun _ => True) sb p) (fun _ _ _ h hstep => h.fileStep hstep)
    ⟨⟨own, h⟩, fun n hn => absurd hn (hidle n)⟩).unshared

end

/-- `iput` of the root after `userinit`. -/
theorem blocks_unshared_at_boot :
    ∃ tr t, Exec (FileStep initproc) (FsState.boot (diskInUse 4)) tr t ∧
      (t.icache firstSlot).ref = 0 ∧ Unshared ⟨1024, 995, 200⟩ t := by
  have hput : (FsState.boot (diskInUse 4)).iputTest initproc firstSlot = some (false, _) := rfl
  have hrun : Exec (FileStep initproc) (FsState.boot (diskInUse 4)) [(_, .iput firstSlot)] _ :=
    .snoc (.nil _) ⟨trivial, trivial, .act hput (.refl _ _)⟩
  exact ⟨_, _, hrun, rfl, blocks_unshared (owned_diskInUse.weaken fun _ _ => trivial)
    (by nofun) hrun⟩

end Xv6

import Xv6.Lib.Lines
import Xv6.User.Match

/-! # `grep` over a stream

`grep` of `grep.c` reads a stream piece by piece into a buffer of 1024 bytes, prints the lines that
match and moves the line that has not ended to the front. Nothing marks the end of what was read:
`strchr` goes on into the bytes that earlier reads left behind, and beyond the buffer if there is no
terminator among them. The model stops where an access leaves the buffer.

`Covered` says of a stream, and of the way in which it is split, that this does no harm: it holds
exactly if `grep` is right for every pattern. -/

namespace Xv6.Grep

open Lib

/-- The newline. -/
def NL : UInt8 := 10

/-- `sizeof(buf)`. -/
def BUFSZ : Nat := 1024

/-! ## The program -/

/-- **`strchr`** on the bytes of the buffer from a position on: no result if it runs out of them. -/
def strchr (c : UInt8) : List UInt8 → Option (Option Nat)
  | [] => none
  | b :: bs =>
    if b = 0 then some none
    else if b = c then some (some 0)
    else (strchr c bs).map (Option.map (· + 1))

/-- The C string at the beginning of some bytes. -/
def cstr (bs : List UInt8) : List UInt8 := bs.takeWhile (· ≠ 0)

/-- The inner loop of `grep` from `p` on: the buffer and `p` after it, and what it writes. Each
round moves `p` on, so that no more rounds than bytes are left are possible: with no byte left
`strchr` leaves the buffer. -/
def scan (pattern : List UInt8) :
    Nat → List UInt8 → Nat → Option (List UInt8 × Nat × List UInt8)
  | 0, _, _ => none
  | n + 1, buf, p =>
    match strchr NL (buf.drop p) with
    | none => none
    | some none => some (buf, p, [])
    | some (some k) =>
      let q := p + k
      let buf := buf.set q 0
      if matchRe pattern (cstr (buf.drop p)) then
        let buf := buf.set q NL
        (scan pattern n buf (q + 1)).map fun r =>
          (r.1, r.2.1, (buf.drop p).take (q + 1 - p) ++ r.2.2)
      else scan pattern n buf (q + 1)

/-- `memmove(buf, buf + p, n)`. -/
def moveDown (buf : List UInt8) (p : Nat) (n : Int) : List UInt8 :=
  (buf.drop p).take n.toNat ++ buf.drop n.toNat

/-- The bytes that `read` stores at `m`. -/
def store (buf : List UInt8) (m : Nat) (c : List UInt8) : List UInt8 :=
  buf.take m ++ (c ++ buf.drop (m + c.length))

/-- What follows the inner loop: the line that has not ended is moved to the front, and dropped if
no line has ended. -/
def settle (m : Int) (r : List UInt8 × Nat × List UInt8) : List UInt8 × Int × List UInt8 :=
  let (buf, p, w) := r
  let m := if p = 0 then 0 else m
  if 0 < m then (moveDown buf p (m - p), m - p, w) else (buf, m, w)

/-- **The body of the outer loop** for a read of the bytes `c`: the buffer and `m` after it, and what
it writes. -/
def pass (pattern buf : List UInt8) (m : Int) (c : List UInt8) :
    Option (List UInt8 × Int × List UInt8) :=
  if m < 0 ∨ BUFSZ < m + c.length then none
  else
    (scan pattern BUFSZ (store buf m.toNat c) 0).map (settle (m + c.length))

/-- How many bytes `read` returns: none at the end of the stream or if none are asked for, otherwise
any number up to those asked for and those left, at least one. -/
def readCount (want : Nat) (request : Int) (left : Nat) : Nat :=
  if request ≤ 0 ∨ left = 0 then 0 else max 1 (min want (min request.toNat left))

/-- The outer loop of `grep`: what it writes. The number of bytes that a read would return is given
by how many are left. Each read takes at least one, so that with as many rounds as bytes none is
left at the end. -/
def grepLoop (pattern : List UInt8) (want : Nat → Nat) :
    Nat → List UInt8 → Int → List UInt8 → Option (List UInt8)
  | 0, _, _, _ => some []
  | n + 1, buf, m, rest =>
    let k := readCount (want rest.length) (BUFSZ - m) rest.length
    if k = 0 then some []
    else
      (pass pattern buf m (rest.take k)).bind fun s =>
        (grepLoop pattern want n s.1 s.2.1 (rest.drop k)).map (s.2.2 ++ ·)

/-- **`grep`** on a stream that `read` splits as `want` says. There is no result if an access leaves
the buffer. -/
def grep (pattern : List UInt8) (want : Nat → Nat) (stream : List UInt8) : Option (List UInt8) :=
  grepLoop pattern want stream.length (List.replicate BUFSZ 0) 0 stream

/-! ## What `grep` is for -/

/-- A line with its newline if it matches. -/
def select (pattern l : List UInt8) : List UInt8 := if matchRe pattern l then l ++ [NL] else []

/-- **The matching lines** of a stream, one after the other, of those that a newline ends. -/
def matchingLines (pattern stream : List UInt8) : List UInt8 :=
  (cut NL stream).1.flatMap (select pattern)

/-- The bytes of a stream that are part of ended lines. -/
def ended (s : List UInt8) : Nat := s.length - (cut NL s).2.length

/-- The line that has not ended when the buffer holds `d`, dropped if no line has. -/
def kept (d : List UInt8) : List UInt8 := if NL ∈ d then (cut NL d).2 else []

/-- **The reads of a stream that do no harm**, where the buffer holds the line `t` that has not
ended, and newlines below `e` only. Every read leaves a byte of the buffer free, reaches the last
newline that is in the buffer, and ends a line, unless no line is ended any more. -/
def CoveredFrom (want : Nat → Nat) : Nat → List UInt8 → Nat → List UInt8 → Prop
  | 0, _, _, _ => True
  | n + 1, t, e, rest =>
    let k := readCount (want rest.length) (BUFSZ - t.length) rest.length
    let d := t ++ rest.take k
    k = 0 ∨ d.length < BUFSZ ∧ e ≤ d.length ∧ (NL ∈ d ∨ NL ∉ rest.drop k) ∧
      CoveredFrom want n (kept d) (ended d) (rest.drop k)

instance decidableCoveredFrom (want : Nat → Nat) :
    (n : Nat) → (t : List UInt8) → (e : Nat) → (rest : List UInt8) →
      Decidable (CoveredFrom want n t e rest)
  | 0, _, _, _ => .isTrue trivial
  | n + 1, _, _, _ =>
    have := decidableCoveredFrom want n
    inferInstanceAs (Decidable (_ ∨ _ ∧ _ ∧ _ ∧ _))

/-- **All the reads of a stream do no harm**. -/
def Covered (want : Nat → Nat) (stream : List UInt8) : Prop :=
  CoveredFrom want stream.length [] 0 stream

instance (want : Nat → Nat) (stream : List UInt8) : Decidable (Covered want stream) :=
  decidableCoveredFrom want stream.length [] 0 stream

/-! ## `strchr` -/

/-- The character is found behind bytes that are neither it nor the terminator. -/
theorem strchr_found {c : UInt8} {l : List UInt8} (s : List UInt8) (hc : c ≠ 0) (h0 : 0 ∉ l)
    (hl : c ∉ l) : strchr c (l ++ c :: s) = some (some l.length) := by
  induction l with
  | nil => rw [List.nil_append, strchr, if_neg hc, if_pos rfl, List.length_nil]
  | cons b l ih =>
      obtain ⟨hb0, h0⟩ := List.ne_and_not_mem_of_not_mem_cons h0
      obtain ⟨hbc, hl⟩ := List.ne_and_not_mem_of_not_mem_cons hl
      rw [List.cons_append, strchr, if_neg hb0.symm, if_neg hbc.symm, ih h0 hl]
      rfl

/-- A terminator ends the search if the character is not before it. -/
theorem strchr_absent {c : UInt8} {j : List UInt8} (hc : c ∉ j) (h0 : 0 ∈ j) :
    strchr c j = some none := by
  induction j with
  | nil => exact absurd h0 List.not_mem_nil
  | cons b j ih =>
      obtain ⟨hbc, hj⟩ := List.ne_and_not_mem_of_not_mem_cons hc
      rw [strchr]
      split
      · rfl
      · next hb =>
        rw [if_neg hbc.symm, ih hj ((List.mem_cons.mp h0).resolve_left (Ne.symm hb))]
        rfl

/-- Without a terminator the search leaves the buffer. -/
theorem strchr_outside {c : UInt8} {l : List UInt8} (h0 : 0 ∉ l) (hl : c ∉ l) :
    strchr c l = none := by
  induction l with
  | nil => rfl
  | cons b l ih =>
      obtain ⟨hb0, h0⟩ := List.ne_and_not_mem_of_not_mem_cons h0
      obtain ⟨hbc, hl⟩ := List.ne_and_not_mem_of_not_mem_cons hl
      rw [strchr, if_neg hb0.symm, if_neg hbc.symm, ih h0 hl]
      rfl

/-! ## The lines of a buffer -/

/-- What stands behind a line once it has been tried: its newline, or the terminator. -/
def mark (pattern l : List UInt8) : UInt8 := if matchRe pattern l then NL else 0

/-- The ended lines of the buffer once they have been tried. -/
def stamped (pattern d : List UInt8) : List UInt8 :=
  (cut NL d).1.flatMap fun l => l ++ [mark pattern l]

section Lines

variable {pattern : List UInt8} {l : List UInt8}

theorem stamped_line (s : List UInt8) (h : NL ∉ l) :
    stamped pattern (l ++ NL :: s) = l ++ mark pattern l :: stamped pattern s := by
  rw [stamped, cut_append_cons s h, List.flatMap_cons, stamped, List.append_assoc,
    List.singleton_append]

theorem stamped_tail (h : NL ∉ l) : stamped pattern l = [] := by
  rw [stamped, cut_of_not_mem h, List.flatMap_nil]

theorem matchingLines_line (s : List UInt8) (h : NL ∉ l) :
    matchingLines pattern (l ++ NL :: s) = select pattern l ++ matchingLines pattern s := by
  rw [matchingLines, cut_append_cons s h, List.flatMap_cons, matchingLines]

theorem matchingLines_tail (h : NL ∉ l) : matchingLines pattern l = [] := by
  rw [matchingLines, cut_of_not_mem h, List.flatMap_nil]

theorem matchingLines_append (d r : List UInt8) :
    matchingLines pattern (d ++ r) =
      matchingLines pattern d ++ matchingLines pattern ((cut NL d).2 ++ r) := by
  rw [matchingLines, cut_append, List.flatMap_append, matchingLines, matchingLines]

theorem length_stamped_add (pattern d : List UInt8) :
    (stamped pattern d).length + (cut NL d).2.length = d.length := by
  induction d using line_induction NL with
  | tail t h => rw [stamped_tail h, cut_of_not_mem h, List.length_nil, Nat.zero_add]
  | line l s h ih =>
      rw [stamped_line s h, cut_append_cons s h]
      simp only [List.length_append, List.length_cons]
      omega

theorem length_stamped (pattern d : List UInt8) : (stamped pattern d).length = ended d := by
  have h := length_stamped_add pattern d
  unfold ended
  omega

theorem ended_line (s : List UInt8) (h : NL ∉ l) :
    ended (l ++ NL :: s) = l.length + (1 + ended s) := by
  rw [← length_stamped [], stamped_line s h, List.length_append, List.length_cons,
    length_stamped, Nat.add_comm 1]

theorem ended_tail (h : NL ∉ l) : ended l = 0 := by
  rw [← length_stamped [], stamped_tail h, List.length_nil]

theorem ended_pos {d : List UInt8} (h : NL ∈ d) : 0 < ended d := by
  obtain ⟨l, s, rfl, hl⟩ := List.eq_append_cons_of_mem h
  rw [ended_line s hl]
  omega

theorem cstr_line {s : List UInt8} (h0 : 0 ∉ l) : cstr (l ++ 0 :: s) = l := by
  rw [cstr, List.takeWhile_append_of_pos]
  · simp
  · intro b hb
    exact decide_eq_true fun hz : b = 0 => h0 (hz ▸ hb)

/-- **One round of the inner loop**. -/
theorem scan_line (n : Nat) (pre s : List UInt8) (h0 : 0 ∉ l) (h : NL ∉ l) :
    scan pattern (n + 1) (pre ++ (l ++ NL :: s)) pre.length =
      (scan pattern n ((pre ++ (l ++ [mark pattern l])) ++ s)
        (pre ++ (l ++ [mark pattern l])).length).map fun r =>
          (r.1, r.2.1, select pattern l ++ r.2.2) := by
  have hset : ∀ b c, (pre ++ (l ++ b :: s)).set (pre.length + l.length) c =
      pre ++ (l ++ c :: s) := by
    intro b c
    rw [List.set_append_right _ _ (Nat.le_add_right ..), Nat.add_sub_cancel_left,
      List.set_append_right _ _ (Nat.le_refl _), Nat.sub_self, List.set_cons_zero]
  have hlen : (pre ++ (l ++ [mark pattern l])).length = pre.length + l.length + 1 := by
    simp only [List.length_append, List.length_cons, List.length_nil]
    omega
  have hassoc : ∀ c, (pre ++ (l ++ [c])) ++ s = pre ++ (l ++ c :: s) := by
    intro c
    simp only [List.append_assoc, List.singleton_append]
  rw [scan, List.drop_left, strchr_found s (by decide) h0 h, hlen, hassoc]
  simp only [hset, List.drop_left, cstr_line h0]
  unfold mark select
  split
  · have htake : (l ++ NL :: s).take (pre.length + l.length + 1 - pre.length) = l ++ [NL] := by
      rw [Nat.add_assoc, Nat.add_sub_cancel_left, List.append_cons]
      exact List.take_left' List.length_append
    rw [htake]
  · simp

variable {j : List UInt8}

/-- **The inner loop** over a buffer that holds `d` and behind it a terminator and no newline. -/
theorem scan_data (pattern : List UInt8) (hj : NL ∉ j) (hj0 : 0 ∈ j) (d : List UInt8) :
    ∀ (n : Nat) (pre : List UInt8), d.length < n → 0 ∉ d →
      scan pattern n (pre ++ (d ++ j)) pre.length =
        some (pre ++ (stamped pattern d ++ ((cut NL d).2 ++ j)), pre.length + ended d,
          matchingLines pattern d) := by
  induction d using line_induction NL with
  | tail t h =>
      intro n pre hn h0
      obtain ⟨n, rfl⟩ := Nat.exists_eq_succ_of_ne_zero (Nat.ne_zero_of_lt hn)
      have habs : strchr NL (t ++ j) = some none :=
        strchr_absent (fun hm => (List.mem_append.mp hm).elim h hj) (List.mem_append_right _ hj0)
      rw [scan, List.drop_left, habs, stamped_tail h, cut_of_not_mem h, ended_tail h,
        matchingLines_tail h]
      rfl
  | line l s h ih =>
      intro n pre hn h0
      obtain ⟨n, rfl⟩ := Nat.exists_eq_succ_of_ne_zero (Nat.ne_zero_of_lt hn)
      have hl0 : 0 ∉ l := fun hm => h0 (List.mem_append_left _ hm)
      have hs0 : 0 ∉ s := fun hm => h0 (List.mem_append_right _ (.tail _ hm))
      have hns : s.length < n := by
        rw [List.length_append, List.length_cons] at hn
        omega
      rw [List.append_assoc, List.cons_append, scan_line n pre (s ++ j) hl0 h, ih n _ hns hs0,
        stamped_line s h, cut_append_cons s h, ended_line s h, matchingLines_line s h]
      simp only [Option.map_some, List.append_assoc, List.length_append, List.cons_append,
        List.nil_append, List.length_cons, List.length_nil, Nat.add_assoc, Nat.zero_add]

/-- **A full buffer**: without a terminator the inner loop leaves the buffer. -/
theorem scan_outside (d : List UInt8) :
    ∀ (n : Nat) (pre : List UInt8), 0 ∉ d → scan pattern n (pre ++ d) pre.length = none := by
  induction d using line_induction NL with
  | tail t h =>
      intro n pre h0
      cases n with
      | zero => rfl
      | succ n => rw [scan, List.drop_left, strchr_outside h0 h]
  | line l s h ih =>
      intro n pre h0
      have hl0 : 0 ∉ l := fun hm => h0 (List.mem_append_left _ hm)
      have hs0 : 0 ∉ s := fun hm => h0 (List.mem_append_right _ (.tail _ hm))
      cases n with
      | zero => rfl
      | succ n => rw [scan_line n pre s hl0 h, ih n _ hs0, Option.map_none]

/-! ## One read -/

/-- The bytes of a read go behind those that are in the buffer. -/
theorem store_append (t old c : List UInt8) :
    store (t ++ old) t.length c = (t ++ c) ++ old.drop c.length := by
  rw [store, List.take_left, List.append_assoc, ← List.drop_drop, List.drop_left]

/-- What follows the inner loop if a line has ended. -/
theorem settle_of_pos {m : Int} {buf w : List UInt8} {p : Nat} (hm : 0 < m) (hp : 0 < p) :
    settle m (buf, p, w) = (moveDown buf p (m - p), m - p, w) := by
  rw [settle]
  simp only [if_neg (Nat.ne_of_gt hp), if_pos hm]

/-- A read that fits the buffer goes through the inner loop. -/
theorem pass_of_fits {t c : List UInt8} (old : List UInt8) (hfit : (t ++ c).length ≤ BUFSZ) :
    pass pattern (t ++ old) t.length c =
      (scan pattern BUFSZ (t ++ c ++ old.drop c.length) 0).map
        (settle ((t ++ c).length : Int)) := by
  rw [List.length_append] at hfit ⊢
  rw [pass, if_neg (by omega), Int.toNat_natCast, store_append, Int.natCast_add]

/-- What is left of the buffer after a read of `c` behind `t`, with `j` behind that. -/
def moved (pattern d j : List UInt8) : List UInt8 :=
  kept d ++ (stamped pattern d ++ ((cut NL d).2 ++ j)).drop (kept d).length

/-- **The body of the outer loop** after a read that leaves a terminator and no newline behind the
bytes that count. -/
theorem pass_eq {t c old : List UInt8} (hlen : (t ++ c).length < BUFSZ) (h0 : 0 ∉ t ++ c)
    (hj : NL ∉ old.drop c.length) (hj0 : 0 ∈ old.drop c.length) :
    pass pattern (t ++ old) t.length c =
      some (moved pattern (t ++ c) (old.drop c.length), ((kept (t ++ c)).length : Int),
        matchingLines pattern (t ++ c)) := by
  have hscan := scan_data pattern hj hj0 (t ++ c) BUFSZ [] hlen h0
  simp only [List.nil_append, List.length_nil, Nat.zero_add] at hscan
  rw [pass_of_fits old (Nat.le_of_lt hlen), hscan, Option.map_some]
  unfold moved kept
  by_cases hn : NL ∈ t ++ c
  · -- a line has ended: what is behind the last newline is moved to the front
    have hpos := ended_pos hn
    have hcut := length_stamped_add pattern (t ++ c)
    rw [length_stamped] at hcut
    have hm : ((t ++ c).length : Int) - (ended (t ++ c) : Nat) =
        ((cut NL (t ++ c)).2.length : Nat) := by
      omega
    rw [settle_of_pos (by omega) hpos, if_pos hn, hm, moveDown, Int.toNat_natCast,
      ← length_stamped pattern, List.drop_left, List.take_left]
  · rw [ended_tail hn, if_neg hn, settle, List.length_nil, List.nil_append, List.drop_zero]
    rfl

/-! ## Reads that do no harm -/

/-- The empty pattern matches every text. -/
theorem matchRe_nil (text : List UInt8) : matchRe [] text = true :=
  (matchLoop_iff [] text).mpr ⟨[], text, rfl, startsAt_nil text⟩

/-- Under the empty pattern the buffer stays as it was read. -/
theorem stamped_nil_append (d : List UInt8) : stamped [] d ++ (cut NL d).2 = d := by
  induction d using line_induction NL with
  | tail t h => rw [stamped_tail h, cut_of_not_mem h, List.nil_append]
  | line l s h ih =>
      rw [stamped_line s h, cut_append_cons s h, mark, if_pos (matchRe_nil l), List.append_assoc,
        List.cons_append, ih]

theorem mem_of_mem_kept {b : UInt8} {d : List UInt8} (h : b ∈ kept d) : b ∈ d := by
  unfold kept at h
  split at h
  · rw [← stamped_nil_append d]
    exact List.mem_append_right _ h
  · exact absurd h List.not_mem_nil

/-- Dropping a line that does not end loses nothing. -/
theorem matchingLines_kept {d r : List UInt8} (h : NL ∈ d ∨ NL ∉ r) :
    matchingLines pattern ((cut NL d).2 ++ r) = matchingLines pattern (kept d ++ r) := by
  unfold kept
  split
  · rfl
  · next hd =>
    have hr := h.resolve_left hd
    rw [cut_of_not_mem hd, List.nil_append, matchingLines_tail hr,
      matchingLines_tail fun hm => (List.mem_append.mp hm).elim hd hr]

theorem not_mem_kept (d : List UInt8) : NL ∉ kept d := by
  unfold kept
  split
  · exact not_mem_cut_snd d
  · exact List.not_mem_nil

theorem length_kept_le (d : List UInt8) : (kept d).length ≤ d.length := by
  unfold kept
  split
  · have h := length_stamped_add [] d
    omega
  · exact Nat.zero_le _

/-- A byte that is not below some position is not below a later one. -/
theorem not_mem_drop_of_le {b : UInt8} {s : List UInt8} {i k : Nat} (h : b ∉ s.drop i)
    (hik : i ≤ k) : b ∉ s.drop k := by
  rw [← Nat.add_sub_cancel' hik, ← List.drop_drop]
  exact fun hm => h (List.mem_of_mem_drop hm)

/-- After a read the newlines of the buffer are below the last one that was read. -/
theorem not_mem_drop_moved (pattern d : List UInt8) (hj : NL ∉ j) :
    NL ∉ (moved pattern d j).drop (ended d) := by
  have hrest : NL ∉ (cut NL d).2 ++ j := fun hm =>
    (List.mem_append.mp hm).elim (not_mem_cut_snd d) hj
  have hall : NL ∉ (stamped pattern d ++ ((cut NL d).2 ++ j)).drop (ended d) := by
    rwa [← length_stamped pattern, List.drop_left]
  rw [moved, List.drop_append, List.drop_drop]
  intro hm
  rcases List.mem_append.mp hm with hm | hm
  · exact not_mem_kept d (List.mem_of_mem_drop hm)
  · exact not_mem_drop_of_le hall (by omega) hm

/-- The buffer keeps its size and the free byte at its end. -/
theorem moved_eq (pattern d : List UInt8) (hj : j.getLast? = some 0) :
    ∃ old, moved pattern d j = kept d ++ old ∧
      (kept d).length + old.length = d.length + j.length ∧ old.getLast? = some 0 := by
  have hlen := length_stamped_add pattern d
  have hk := length_kept_le d
  have hpos : 0 < j.length := List.length_pos_of_ne_nil (by rintro rfl; cases hj)
  refine ⟨_, rfl, ?_, ?_⟩
  · simp only [List.length_drop, List.length_append]
    omega
  · rw [List.getLast?_drop, if_neg (by simp only [List.length_append]; omega),
      List.getLast?_append, List.getLast?_append, hj]
    rfl

/-- A round of the outer loop at the end of the stream. -/
theorem grepLoop_end (want : Nat → Nat) (n : Nat) (buf : List UInt8) (m : Int) :
    grepLoop pattern want n buf m [] = some [] := by
  cases n with
  | zero => rfl
  | succ n =>
      have hk : readCount (want 0) (BUFSZ - m) 0 = 0 := if_pos (.inr rfl)
      rw [grepLoop, List.length_nil, hk]
      rfl

/-- How many bytes `read` returns where there is room and something is left. -/
theorem readCount_bounds (want : Nat) {request : Int} {left : Nat} (hr : 0 < request)
    (hl : 0 < left) :
    0 < readCount want request left ∧ readCount want request left ≤ request.toNat ∧
      readCount want request left ≤ left := by
  rw [readCount, if_neg (by omega)]
  omega

/-- **A round of the outer loop** in which `read` returns the bytes `c`. -/
theorem exists_read (want : Nat → Nat) {t rest : List UInt8} (ht : t.length < BUFSZ)
    (hrest : rest ≠ []) :
    ∃ c r, rest = c ++ r ∧ 0 < c.length ∧ (t ++ c).length ≤ BUFSZ ∧
      (∀ pattern n buf, grepLoop pattern want (n + 1) buf t.length rest =
        (pass pattern buf t.length c).bind fun s =>
          (grepLoop pattern want n s.1 s.2.1 r).map (s.2.2 ++ ·)) ∧
      ∀ n e, CoveredFrom want (n + 1) t e rest ↔
        (t ++ c).length < BUFSZ ∧ e ≤ (t ++ c).length ∧ (NL ∈ t ++ c ∨ NL ∉ r) ∧
          CoveredFrom want n (kept (t ++ c)) (ended (t ++ c)) r := by
  obtain ⟨hpos, hreq, hleft⟩ := readCount_bounds (want rest.length)
    (by omega : (0 : Int) < BUFSZ - t.length) (List.length_pos_of_ne_nil hrest)
  let k := readCount (want rest.length) (BUFSZ - t.length) rest.length
  refine ⟨rest.take k, rest.drop k, (List.take_append_drop ..).symm, ?_, ?_, ?_, ?_⟩
  · rwa [List.length_take_of_le hleft]
  · rw [List.length_append, List.length_take_of_le hleft]
    omega
  · intro pattern n buf
    simp only [grepLoop, if_neg (Nat.ne_of_gt hpos), k]
  · intro n e
    simp only [CoveredFrom, Nat.ne_of_gt hpos, false_or, k]

/-- **A run whose reads do no harm** writes the matching lines. -/
theorem grepLoop_of_covered (pattern : List UInt8) (want : Nat → Nat) :
    ∀ (n : Nat) (t old rest : List UInt8) (e : Nat), rest.length ≤ n →
      CoveredFrom want n t e rest → t.length + old.length = BUFSZ → old.getLast? = some 0 →
      NL ∉ t → 0 ∉ t ++ rest → NL ∉ (t ++ old).drop e →
      grepLoop pattern want n (t ++ old) t.length rest =
        some (matchingLines pattern (t ++ rest)) := by
  intro n
  induction n with
  | zero =>
      intro t old rest e hn _ _ _ ht _ _
      rw [List.length_eq_zero_iff.mp (Nat.le_zero.mp hn), List.append_nil, matchingLines_tail ht,
        grepLoop_end]
  | succ n ih =>
      intro t old rest e hn hcov hlen hlast ht h0 he
      by_cases hrest : rest = []
      · rw [hrest, List.append_nil, matchingLines_tail ht, grepLoop_end]
      have holdpos : 0 < old.length := List.length_pos_of_ne_nil (by rintro rfl; cases hlast)
      obtain ⟨c, r, rfl, hc, -, hround, hcovered⟩ :=
        exists_read want (by omega : t.length < BUFSZ) hrest
      obtain ⟨hd, hed, hnl, hcov⟩ := (hcovered n e).mp hcov
      have hr : r.length ≤ n := by
        rw [List.length_append] at hn
        omega
      rw [← List.append_assoc] at h0 ⊢
      -- behind what was read there is no newline, and the free byte
      have hj : NL ∉ old.drop c.length := by
        have h := not_mem_drop_of_le he hed
        rwa [List.length_append, ← List.drop_drop, List.drop_left] at h
      have hcold : c.length < old.length := by
        rw [List.length_append] at hd
        omega
      have hjlast : (old.drop c.length).getLast? = some 0 := by
        rw [List.getLast?_drop, if_neg (by omega), hlast]
      have hd0 : 0 ∉ t ++ c := fun hm => h0 (List.mem_append_left _ hm)
      have hk0 : 0 ∉ kept (t ++ c) ++ r := fun hm =>
        (List.mem_append.mp hm).elim (fun hm => hd0 (mem_of_mem_kept hm))
          fun hm => h0 (List.mem_append_right _ hm)
      have hmoved := not_mem_drop_moved pattern (t ++ c) hj
      obtain ⟨old', heq, hlen', hlast'⟩ := moved_eq pattern (t ++ c) hjlast
      rw [heq] at hmoved
      have hsize : (kept (t ++ c)).length + old'.length = BUFSZ := by
        rw [List.length_append, List.length_drop] at hlen'
        omega
      rw [hround, pass_eq hd hd0 hj (List.mem_of_getLast? hjlast), heq, Option.bind_some,
        matchingLines_append (t ++ c) r, matchingLines_kept hnl]
      simp only [ih _ old' r _ hr hcov hsize hlast' (not_mem_kept _) hk0 hmoved, Option.map_some]

end Lines

/-! ## Reads that do harm

Under the empty pattern every byte of the buffer stays as it was read. -/

/-- The empty pattern selects all the lines. -/
theorem matchingLines_nil (d : List UInt8) : matchingLines [] d = stamped [] d := by
  unfold matchingLines stamped
  congr 1
  funext l
  rw [select, mark, if_pos (matchRe_nil l), if_pos (matchRe_nil l)]

/-- The ended lines are those up to the last newline. -/
theorem lt_ended_iff {i : Nat} {d : List UInt8} : i < ended d ↔ NL ∈ d.drop i := by
  constructor
  · intro h
    induction d using line_induction NL generalizing i with
    | tail t ht => rw [ended_tail ht] at h; omega
    | line l s hl ih =>
        rw [ended_line s hl] at h
        rw [List.drop_append]
        by_cases hi : i ≤ l.length
        · rw [Nat.sub_eq_zero_of_le hi]
          exact List.mem_append_right _ List.mem_cons_self
        · obtain ⟨k, hk⟩ : ∃ k, i - l.length = k + 1 := ⟨i - l.length - 1, by omega⟩
          rw [hk, List.drop_succ_cons]
          exact List.mem_append_right _ (ih (by omega))
  · intro h
    by_contra hi
    have hd : (stamped [] d ++ (cut NL d).2).drop (stamped [] d).length = (cut NL d).2 :=
      List.drop_left
    rw [stamped_nil_append, length_stamped] at hd
    exact not_mem_drop_of_le (hd ▸ not_mem_cut_snd d) (Nat.le_of_not_lt hi) h

/-- The first newline of the ended lines is the first one. -/
theorem idxOf_matchingLines {d : List UInt8} (h : NL ∈ d) :
    NL ∈ matchingLines [] d ∧ (matchingLines [] d).idxOf NL = d.idxOf NL := by
  have hd := stamped_nil_append d
  rw [← matchingLines_nil] at hd
  have hm : NL ∈ matchingLines [] d := by
    rw [← hd] at h
    exact (List.mem_append.mp h).resolve_right (not_mem_cut_snd d)
  refine ⟨hm, ?_⟩
  conv_rhs => rw [← hd]
  rw [List.idxOf_append_of_mem hm]

/-- **A read that fills the buffer** makes `strchr` leave it. -/
theorem pass_full (pattern : List UInt8) {t c old : List UInt8}
    (hlen : t.length + old.length = BUFSZ) (hfull : (t ++ c).length = BUFSZ) (h0 : 0 ∉ t ++ c) :
    pass pattern (t ++ old) t.length c = none := by
  have hold : old.drop c.length = [] := by
    rw [List.length_append] at hfull
    exact List.drop_eq_nil_of_le (by omega)
  have hscan : scan pattern BUFSZ (t ++ c) 0 = none := scan_outside (t ++ c) BUFSZ [] h0
  rw [pass_of_fits old (Nat.le_of_eq hfull), hold, List.append_nil, hscan, Option.map_none]

/-- **A newline left behind by an earlier read** is found, and `m` becomes negative. -/
theorem pass_stale (pattern : List UInt8) {t c j : List UInt8} {z : Nat}
    (hlen : t.length + (j.length + z) = BUFSZ) (hz : 0 < z) (hc : 0 < c.length) (h0 : 0 ∉ t ++ c)
    (hj0 : 0 ∉ j) (hj : NL ∈ j.drop c.length) :
    ∃ buf m, pass pattern (t ++ (j ++ List.replicate z 0)) t.length c =
      some (buf, m, matchingLines pattern ((t ++ c) ++ j.drop c.length)) ∧ m < 0 := by
  have hcj : c.length < j.length := by
    by_contra hle
    rw [List.drop_eq_nil_of_le (Nat.le_of_not_lt hle)] at hj
    exact List.not_mem_nil hj
  have hend : (t ++ c).length < ended ((t ++ c) ++ j.drop c.length) := by
    rw [lt_ended_iff, List.drop_left]
    exact hj
  have hzeros : NL ∉ List.replicate z 0 := fun hm =>
    absurd (List.eq_of_mem_replicate hm) (by decide)
  have hzero : 0 ∈ List.replicate z (0 : UInt8) := List.mem_replicate.mpr ⟨Nat.ne_of_gt hz, rfl⟩
  have hd0 : 0 ∉ (t ++ c) ++ j.drop c.length := fun hm =>
    (List.mem_append.mp hm).elim h0 fun hm => hj0 (List.mem_of_mem_drop hm)
  have hdlen : ((t ++ c) ++ j.drop c.length).length < BUFSZ := by
    simp only [List.length_append, List.length_drop]
    omega
  have hscan := scan_data pattern hzeros hzero _ BUFSZ [] hdlen hd0
  simp only [List.nil_append, List.length_nil, Nat.zero_add] at hscan
  rw [List.length_append] at hend
  rw [pass_of_fits _ (by rw [List.length_append]; omega),
    List.drop_append_of_le_length (Nat.le_of_lt hcj), ← List.append_assoc, hscan, Option.map_some,
    settle_of_pos (by rw [List.length_append]; omega) (by omega)]
  exact ⟨_, _, rfl, by rw [List.length_append]; omega⟩

/-- The bytes that were never written stay behind those that were. -/
theorem drop_zeros (j : List UInt8) (z k : Nat) :
    (j ++ List.replicate z (0 : UInt8)).drop k =
      j.drop k ++ List.replicate (z - (k - j.length)) 0 := by
  rw [List.drop_append, List.drop_replicate]

/-- **A read that finds no old newline** under the empty pattern, where `z` bytes at the end were
never written. -/
theorem pass_nil {t c j : List UInt8} {z : Nat} (hlen : t.length + (j.length + z) = BUFSZ)
    (hd : (t ++ c).length < BUFSZ) (hz : 0 < z) (h0 : 0 ∉ t ++ c) (hj : NL ∉ j.drop c.length) :
    ∃ j' z', pass [] (t ++ (j ++ List.replicate z 0)) t.length c =
        some (kept (t ++ c) ++ (j' ++ List.replicate z' 0), ((kept (t ++ c)).length : Int),
          matchingLines [] (t ++ c)) ∧
      (kept (t ++ c)).length + (j'.length + z') = BUFSZ ∧ 0 < z' ∧
      j' = (t ++ c ++ j.drop c.length).drop (kept (t ++ c)).length := by
  have hk := length_kept_le (t ++ c)
  have hz' : 0 < z - (c.length - j.length) := by
    rw [List.length_append] at hd
    omega
  have hnl : NL ∉ (j ++ List.replicate z (0 : UInt8)).drop c.length := by
    rw [drop_zeros]
    intro hm
    rcases List.mem_append.mp hm with hm | hm
    · exact hj hm
    · exact absurd (List.eq_of_mem_replicate hm) (by decide)
  have hzero : 0 ∈ (j ++ List.replicate z (0 : UInt8)).drop c.length := by
    rw [drop_zeros]
    exact List.mem_append_right _ (List.mem_replicate.mpr ⟨Nat.ne_of_gt hz', rfl⟩)
  refine ⟨_, z - (c.length - j.length), ?_, ?_, hz', rfl⟩
  · rw [pass_eq hd h0 hnl hzero, moved, drop_zeros, ← List.append_assoc, stamped_nil_append,
      ← List.append_assoc, List.drop_append_of_le_length]
    rw [List.length_append]
    omega
  · simp only [List.length_drop, List.length_append] at hk ⊢ hd
    omega

/-- A byte that the buffer does not hold after a read. -/
theorem not_mem_left {b : UInt8} {d j : List UInt8} {k n : Nat} (hd : b ∉ d) (hj : b ∉ j) :
    b ∉ (d ++ j.drop n).drop k := fun hm =>
  (List.mem_append.mp (List.mem_of_mem_drop hm)).elim hd fun hm => hj (List.mem_of_mem_drop hm)

/-- **A line whose beginning was dropped** comes out too short, or an access leaves the buffer. -/
theorem grepLoop_dropped (want : Nat → Nat) :
    ∀ (n z : Nat) (t j rest o : List UInt8), rest.length ≤ n →
      t.length + (j.length + z) = BUFSZ → 0 < z → 0 ∉ t ++ rest → NL ∉ t → NL ∉ j → NL ∈ rest →
      grepLoop [] want n (t ++ (j ++ List.replicate z 0)) t.length rest = some o →
      NL ∈ o ∧ o.idxOf NL ≤ (t ++ rest).idxOf NL := by
  intro n
  induction n with
  | zero =>
      intro z t j rest o hn _ _ _ _ _ hnl _
      rw [List.length_eq_zero_iff.mp (Nat.le_zero.mp hn)] at hnl
      exact absurd hnl List.not_mem_nil
  | succ n ih =>
      intro z t j rest o hn hlen hz h0 ht hj hnl hrun
      obtain ⟨c, r, rfl, hc, hfit, hround, -⟩ :=
        exists_read want (by omega : t.length < BUFSZ) (List.ne_nil_of_mem hnl)
      rw [hround] at hrun
      rw [← List.append_assoc] at h0 ⊢
      have hd0 : 0 ∉ t ++ c := fun hm => h0 (List.mem_append_left _ hm)
      have hd : (t ++ c).length < BUFSZ := by
        refine Nat.lt_of_le_of_ne hfit fun hfull => ?_
        rw [pass_full [] (by simpa using hlen) hfull hd0] at hrun
        cases hrun
      obtain ⟨j', z', hp, hlen', hz', rfl⟩ :=
        pass_nil hlen hd hz hd0 fun hm => hj (List.mem_of_mem_drop hm)
      rw [hp, Option.bind_some] at hrun
      obtain ⟨o', ho', rfl⟩ := Option.map_eq_some_iff.mp hrun
      by_cases hcn : NL ∈ t ++ c
      · -- the line ends here: what is written is what was read of it
        obtain ⟨hm, hidx⟩ := idxOf_matchingLines hcn
        refine ⟨List.mem_append_left _ hm, Nat.le_of_eq ?_⟩
        rw [List.idxOf_append_of_mem hm, List.idxOf_append_of_mem hcn, hidx]
      · -- it is dropped again
        have hkept : kept (t ++ c) = [] := if_neg hcn
        have hrn : NL ∈ r := (List.mem_append.mp hnl).resolve_left fun hm =>
          hcn (List.mem_append_right _ hm)
        rw [List.length_append] at hn
        have hk0 : 0 ∉ kept (t ++ c) ++ r := by
          rw [hkept]
          exact fun hm => h0 (List.mem_append_right _ hm)
        have hrec := ih z' _ _ r o' (by omega) hlen' hz' hk0 (not_mem_kept _)
          (not_mem_left hcn hj) hrn ho'
        rw [hkept, List.nil_append] at hrec
        rw [matchingLines_tail hcn, List.nil_append, List.idxOf_append_of_notMem hcn]
        exact ⟨hrec.1, by omega⟩

/-- **A newline left behind by an earlier read** makes the run wrong. -/
theorem grepLoop_stale {want : Nat → Nat} {n z : Nat} {t c j r : List UInt8} (hr : r.length ≤ n)
    (hlen : t.length + (j.length + z) = BUFSZ) (hz : 0 < z) (hc : 0 < c.length)
    (h0 : 0 ∉ t ++ c) (hj0 : 0 ∉ j) (hj : NL ∈ j.drop c.length) :
    (pass [] (t ++ (j ++ List.replicate z 0)) t.length c).bind (fun s =>
      (grepLoop [] want n s.1 s.2.1 r).map (s.2.2 ++ ·)) ≠ some (matchingLines [] (t ++ c ++ r)) := by
  obtain ⟨buf, m, hp, hm⟩ := pass_stale [] hlen hz hc h0 hj0 hj
  rw [hp, Option.bind_some]
  cases r with
  | nil =>
      -- at the end of the stream there are too many lines
      rw [grepLoop_end, Option.map_some, List.append_nil, List.append_nil]
      intro heq
      have hlt : (t ++ c).length < ended (t ++ c ++ j.drop c.length) := by
        rw [lt_ended_iff, List.drop_left]
        exact hj
      have hle := length_stamped_add [] (t ++ c)
      have h := congrArg List.length (Option.some.inj heq)
      rw [matchingLines_nil, matchingLines_nil, length_stamped] at h
      omega
  | cons b r =>
      -- the next read stores before the buffer
      obtain ⟨n, rfl⟩ := Nat.exists_eq_succ_of_ne_zero (Nat.ne_zero_of_lt hr)
      obtain ⟨hpos, -, -⟩ := readCount_bounds (want (b :: r).length)
        (by omega : (0 : Int) < BUFSZ - m) (List.length_pos_of_mem (List.mem_cons_self : b ∈ b :: r))
      have hnone : grepLoop [] want (n + 1) buf m (b :: r) = none := by
        simp only [grepLoop, if_neg (Nat.ne_of_gt hpos), pass, if_pos (.inl hm : m < 0 ∨ _),
          Option.bind_none]
      rw [hnone, Option.map_none]
      intro heq
      cases heq

/-- **A run that is right under the empty pattern** has only reads that do no harm. -/
theorem covered_of_grepLoop (want : Nat → Nat) :
    ∀ (n z : Nat) (t j rest : List UInt8) (e : Nat), rest.length ≤ n →
      t.length + (j.length + z) = BUFSZ → 0 < z → NL ∉ t → 0 ∉ t ++ rest → 0 ∉ j →
      NL ∉ (t ++ j).drop e → (∀ i, t.length ≤ i → i < e → NL ∈ (t ++ j).drop i) →
      grepLoop [] want n (t ++ (j ++ List.replicate z 0)) t.length rest =
        some (matchingLines [] (t ++ rest)) →
      CoveredFrom want n t e rest := by
  intro n
  induction n with
  | zero =>
      intro z t j rest e _ _ _ _ _ _ _ _ _
      trivial
  | succ n ih =>
      intro z t j rest e hn hlen hz ht h0 hj0 he hlast hrun
      by_cases hrest : rest = []
      · exact .inl (if_pos (.inr (by rw [hrest, List.length_nil])))
      obtain ⟨c, r, rfl, hc, hfit, hround, hcovered⟩ :=
        exists_read want (by omega : t.length < BUFSZ) hrest
      have hr : r.length ≤ n := by
        rw [List.length_append] at hn
        omega
      rw [hround, ← List.append_assoc t c r] at hrun
      rw [← List.append_assoc] at h0
      have hd0 : 0 ∉ t ++ c := fun hm => h0 (List.mem_append_left _ hm)
      have hd : (t ++ c).length < BUFSZ := by
        refine Nat.lt_of_le_of_ne hfit fun hfull => ?_
        rw [pass_full [] (by simpa using hlen) hfull hd0] at hrun
        cases hrun
      have hdrop : (t ++ j).drop (t ++ c).length = j.drop c.length := by
        rw [List.length_append, ← List.drop_drop, List.drop_left]
      have hed : e ≤ (t ++ c).length := by
        by_contra hlt
        have hstale := hlast (t ++ c).length (by simp) (Nat.lt_of_not_le hlt)
        rw [hdrop] at hstale
        exact grepLoop_stale hr hlen hz hc hd0 hj0 hstale hrun
      have hj : NL ∉ j.drop c.length := hdrop ▸ not_mem_drop_of_le he hed
      obtain ⟨j', z', hp, hlen', hz', hj'⟩ := pass_nil hlen hd hz hd0 hj
      rw [hp, Option.bind_some] at hrun
      obtain ⟨o, ho, heq⟩ := Option.map_eq_some_iff.mp hrun
      have hk0 : 0 ∉ kept (t ++ c) ++ r := fun hm =>
        (List.mem_append.mp hm).elim (fun hm => hd0 (mem_of_mem_kept hm))
          fun hm => h0 (List.mem_append_right _ hm)
      have hnl : NL ∈ t ++ c ∨ NL ∉ r := by
        by_contra hnot
        obtain ⟨hcn, hrn⟩ := not_or.mp hnot
        have hrn := not_not.mp hrn
        have hj'n : NL ∉ j' := by
          rw [hj']
          exact fun hm => (List.mem_append.mp (List.mem_of_mem_drop hm)).elim hcn hj
        obtain ⟨-, hle⟩ := grepLoop_dropped want n z' _ j' r o hr hlen' hz' hk0 (not_mem_kept _)
          hj'n hrn ho
        obtain ⟨-, hidx⟩ := idxOf_matchingLines (List.mem_append_right (t ++ c) hrn)
        rw [matchingLines_tail hcn, List.nil_append] at heq
        rw [heq, hidx, kept, if_neg hcn, List.nil_append, List.idxOf_append_of_notMem hcn,
          List.length_append] at hle
        omega
      have hright : o = matchingLines [] (kept (t ++ c) ++ r) := by
        rw [matchingLines_append (t ++ c) r, matchingLines_kept hnl] at heq
        exact List.append_cancel_left heq
      have hmoved := not_mem_drop_moved [] (t ++ c) hj
      rw [moved, ← List.append_assoc, stamped_nil_append, ← hj'] at hmoved
      refine (hcovered n e).mpr ⟨hd, hed, hnl, ih z' _ j' r _ hr hlen' hz' (not_mem_kept _) hk0
        (hj' ▸ not_mem_left hd0 hj0) hmoved ?_ (hright ▸ ho)⟩
      intro i hki hi
      rw [List.drop_append, List.drop_eq_nil_of_le hki, List.nil_append, hj', List.drop_drop,
        Nat.add_sub_cancel' hki, List.drop_append]
      exact List.mem_append_left _ (lt_ended_iff.mp hi)

/-! ## The result -/

end Xv6.Grep

import Xv6.Lib.Ring
import Mathlib.Data.List.Infix

/-! # The input buffer of the console

The ring `input` of `console.c` with its three counters: `r` up to which characters have been
consumed, `w` up to which they have been committed and `e` up to which they have been typed. All
three wrap around. Seen as lists, the ring holds the characters that are ready to be read and
behind them those that can still be edited. -/

namespace Xv6.Console

open Lib

/-- `INPUT_BUF`. -/
def INPUT_BUF : Nat := 128

theorem inputBuf_dvd : INPUT_BUF ∣ 2 ^ 32 := by decide

theorem inputBuf_lt : INPUT_BUF < 2 ^ 32 := by decide

/-- `C(x)`: the character that control and a key send. -/
def C (x : Char) : UInt8 := (x.toNat - '@'.toNat).toUInt8

/-- The character `'\n'`. -/
def newline : UInt8 := 10

/-- **The buffer**, `input`. -/
structure Input where
  buf : Nat → UInt8
  /-- Read index. -/
  r : BitVec 32
  /-- Write index. -/
  w : BitVec 32
  /-- Edit index. -/
  e : BitVec 32

namespace Input

/-- The character `input.buf[i % INPUT_BUF]`. -/
def get (x : Input) (i : BitVec 32) : UInt8 := x.buf (i.toNat % INPUT_BUF)

/-- The assignment `input.buf[input.e++ % INPUT_BUF] = c`. -/
def store (x : Input) (c : UInt8) : Input :=
  { x with buf := Function.update x.buf (x.e.toNat % INPUT_BUF) c, e := x.e + 1#32 }

/-- The decrement `input.e--`. -/
def erase (x : Input) : Input := { x with e := x.e - 1#32 }

/-- The assignment `input.w = input.e`. -/
def commit (x : Input) : Input := { x with w := x.e }

/-- The increment `input.r++`. -/
def advance (x : Input) : Input := { x with r := x.r + 1#32 }

/-- The decrement `input.r--`. -/
def retreat (x : Input) : Input := { x with r := x.r - 1#32 }

/-- **The characters ready to be read**: those committed and not consumed. -/
def ready (x : Input) : List UInt8 := (⟨x.buf, x.r, x.w⟩ : Ring UInt8 32 INPUT_BUF).content

/-- **The characters that can be edited**: those typed and not committed. -/
def edit (x : Input) : List UInt8 := (⟨x.buf, x.w, x.e⟩ : Ring UInt8 32 INPUT_BUF).content

/-- The counters are in their order, at most `INPUT_BUF` apart. -/
structure Valid (x : Input) : Prop where
  order : (x.w - x.r).toNat ≤ (x.e - x.r).toNat
  bound : (x.e - x.r).toNat ≤ INPUT_BUF

theorem length_edit (x : Input) : x.edit.length = (x.e - x.w).toNat := Ring.length_content _

variable {x : Input}

/-- All that was typed and not consumed. -/
theorem content_eq (h : x.Valid) :
    (⟨x.buf, x.r, x.e⟩ : Ring UInt8 32 INPUT_BUF).content = x.ready ++ x.edit :=
  Ring.content_cut inputBuf_dvd h.order

/-- What is ready and what can be edited fill the ring up to `e`. -/
theorem length_add (h : x.Valid) : x.ready.length + x.edit.length = (x.e - x.r).toNat := by
  rw [← List.length_append, ← content_eq h, Ring.length_content]
  rfl

theorem ready_eq_nil : x.ready = [] ↔ x.r = x.w := by
  rw [← List.length_eq_zero_iff, ready, Ring.length_content]
  exact Ring.empty_iff.symm

theorem edit_eq_nil : x.edit = [] ↔ x.w = x.e := by
  rw [← List.length_eq_zero_iff, edit, Ring.length_content]
  exact Ring.empty_iff.symm

/-! ## Typing -/

theorem full_iff : x.e = x.r + BitVec.ofNat 32 INPUT_BUF ↔ (x.e - x.r).toNat = INPUT_BUF :=
  @Ring.full_iff _ _ _ (⟨x.buf, x.r, x.e⟩ : Ring UInt8 32 INPUT_BUF) inputBuf_lt

theorem Valid.store (h : x.Valid) (hroom : (x.e - x.r).toNat < INPUT_BUF) (c : UInt8) :
    (x.store c).Valid := by
  have hcount : (x.e + 1#32 - x.r).toNat = (x.e - x.r).toNat + 1 :=
    @Ring.count_push _ _ _ (⟨x.buf, x.r, x.e⟩ : Ring UInt8 32 INPUT_BUF) c
      (lt_of_le_of_lt hroom inputBuf_lt)
  refine ⟨?_, ?_⟩
  · show (x.w - x.r).toNat ≤ (x.e + 1#32 - x.r).toNat
    have := h.order
    omega
  · show (x.e + 1#32 - x.r).toNat ≤ INPUT_BUF
    omega

/-- **A typed character does not touch what is ready**, at any level of the ring. -/
theorem ready_store (h : x.Valid) (hroom : (x.e - x.r).toNat < INPUT_BUF) (c : UInt8) :
    (x.store c).ready = x.ready :=
  Ring.content_store inputBuf_dvd h.order hroom c

theorem edit_store (h : x.Valid) (hroom : (x.e - x.r).toNat < INPUT_BUF) (c : UInt8) :
    (x.store c).edit = x.edit ++ [c] := by
  have hlt : (⟨x.buf, x.w, x.e⟩ : Ring UInt8 32 INPUT_BUF).count < INPUT_BUF := by
    have hadd := length_add h
    rw [length_edit] at hadd
    show (x.e - x.w).toNat < INPUT_BUF
    omega
  exact Ring.content_push inputBuf_dvd inputBuf_lt hlt.le
    (fun hfull => hlt.ne ((Ring.full_iff inputBuf_lt).mp hfull)) c

/-! ## Erasing and committing -/

theorem edit_erase (h : x.e ≠ x.w) : x.erase.edit = x.edit.dropLast :=
  Ring.content_unpush (r := (⟨x.buf, x.w, x.e⟩ : Ring UInt8 32 INPUT_BUF)) fun hempty =>
    h (show x.w = x.e from hempty).symm

/-- The character before `e`. -/
theorem get_mem_edit (h : x.e ≠ x.w) : x.get (x.e - 1#32) ∈ x.edit :=
  Ring.last_mem_content (r := (⟨x.buf, x.w, x.e⟩ : Ring UInt8 32 INPUT_BUF)) inputBuf_dvd
    fun hempty => h (show x.w = x.e from hempty).symm

theorem Valid.erase (h : x.Valid) (hne : x.e ≠ x.w) : x.erase.Valid := by
  have horder := h.order
  have hbound := h.bound
  have hsub : x.e - 1#32 - x.r = x.e - x.r - 1#32 := by grind
  have hlt : (x.w - x.r).toNat < (x.e - x.r).toNat := by
    refine lt_of_le_of_ne horder fun heq => hne ?_
    have := BitVec.eq_of_toNat_eq heq
    grind
  have hpred : (x.e - 1#32 - x.r).toNat = (x.e - x.r).toNat - 1 := by
    rw [hsub, BitVec.toNat_sub_of_le]
    · rfl
    · rw [BitVec.le_def]
      show 1 ≤ _
      omega
  refine ⟨?_, ?_⟩
  · show (x.w - x.r).toNat ≤ (x.e - 1#32 - x.r).toNat
    omega
  · show (x.e - 1#32 - x.r).toNat ≤ INPUT_BUF
    omega

theorem Valid.commit (h : x.Valid) : x.commit.Valid := ⟨le_rfl, h.bound⟩

/-- **Committing** makes ready what was edited. -/
theorem ready_commit (h : x.Valid) : x.commit.ready = x.ready ++ x.edit := content_eq h

theorem edit_commit (x : Input) : x.commit.edit = [] := edit_eq_nil.mpr rfl

/-! ## Consuming -/

/-- **The next character** is the first one that is ready. -/
theorem ready_advance (hne : x.r ≠ x.w) : x.ready = x.get x.r :: x.advance.ready :=
  Ring.content_pop (r := (⟨x.buf, x.r, x.w⟩ : Ring UInt8 32 INPUT_BUF)) inputBuf_dvd hne

theorem Valid.advance (h : x.Valid) (hne : x.r ≠ x.w) : x.advance.Valid := by
  have horder := h.order
  have hbound := h.bound
  have hw : (x.w - (x.r + 1#32)).toNat + 1 = (x.w - x.r).toNat :=
    Ring.count_pop (r := (⟨x.buf, x.r, x.w⟩ : Ring UInt8 32 INPUT_BUF)) hne
  have he : (x.e - (x.r + 1#32)).toNat + 1 = (x.e - x.r).toNat := by
    refine Ring.count_pop (r := (⟨x.buf, x.r, x.e⟩ : Ring UInt8 32 INPUT_BUF)) fun hempty => ?_
    have hzero := Ring.empty_iff.mp hempty
    change (x.e - x.r).toNat = 0 at hzero
    omega
  refine ⟨?_, ?_⟩
  · show (x.w - (x.r + 1#32)).toNat ≤ (x.e - (x.r + 1#32)).toNat
    omega
  · show (x.e - (x.r + 1#32)).toNat ≤ INPUT_BUF
    omega

/-- Putting back what was consumed last. -/
theorem retreat_advance (x : Input) : x.advance.retreat = x := by
  have hr : x.r + 1#32 - 1#32 = x.r := BitVec.add_sub_cancel ..
  show { x.advance with r := x.r + 1#32 - 1#32 } = x
  rw [hr]
  rfl

end Input

end Xv6.Console

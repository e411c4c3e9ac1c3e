import Mathlib.Data.List.GetD
import Xv6.Lib.Numeral

/-! # The two number printers

`printint` of `console.c`, whose working variable is a `uint`, and `printint` of `printf.c`, whose
working variable is an `int`, on 32-bit words; negation wraps. A printer returns the characters it
emits, and nothing if it reads outside its table of digits or stores outside its buffer. The kernel's
printer emits the shortest numeral of every word (`printint_shortest`). The user's printer leaves its
table for the words it takes as negative (`printers_agree_iff`). -/

namespace Xv6.Print

open Lib

/-! ## The printers -/

/-- `digits[i]` of a table of digits. -/
def digitAt (digits : List Char) (i : Int) : Option Char :=
  if 0 ≤ i then digits[i.toNat]? else none

/-- The loop `do buf[i++] = digits[x % base]; while((x /= base) != 0)` with the remainder and the
quotient of its types, when `room` bytes of the buffer are left: the bytes it stores. -/
def digitLoop (digits : List Char) (rem : BitVec 32 → Int) (quot : BitVec 32 → BitVec 32) :
    (room : Nat) → BitVec 32 → Option (List Char)
  | 0, _ => none
  | room + 1, x => do
      let c ← digitAt digits (rem x)
      if quot x ≠ 0 then
        let rest ← digitLoop digits rem quot room (quot x)
        pure (c :: rest)
      else pure [c]

/-- The size of `buf`. -/
def BUFSIZE : Nat := 16

/-- `if(neg) buf[i++] = '-'`, and then the bytes of the buffer from the last one down. -/
def emit (neg : Bool) (buf : List Char) : Option (List Char) :=
  if neg then
    if buf.length < BUFSIZE then some (buf ++ ['-']).reverse else none
  else some buf.reverse

/-- `digits` of `console.c`. -/
def kernelDigits : List Char :=
  ['0', '1', '2', '3', '4', '5', '6', '7', '8', '9', 'a', 'b', 'c', 'd', 'e', 'f']

/-- `digits` of `printf.c`. -/
def userDigits : List Char :=
  ['0', '1', '2', '3', '4', '5', '6', '7', '8', '9', 'A', 'B', 'C', 'D', 'E', 'F']

/-- The condition `sgn && xx < 0`. -/
def isNeg (xx : BitVec 32) (sgn : Bool) : Bool := sgn && decide (xx.toInt < 0)

/-- **`printint` of `console.c`**: `x` and `base` are unsigned. -/
def printint (xx base : BitVec 32) (sgn : Bool) : Option (List Char) := do
  let neg := isNeg xx sgn
  let x := if neg then -xx else xx
  let buf ← digitLoop kernelDigits (fun x => (x % base).toNat) (fun x => x / base) BUFSIZE x
  emit neg buf

/-- **`printint` of `printf.c`**: `x` and `base` are signed. -/
def userPrintint (xx base : BitVec 32) (sgn : Bool) : Option (List Char) := do
  let neg := isNeg xx sgn
  let x := if neg then -xx else xx
  let buf ← digitLoop userDigits (fun x => (x.srem base).toInt) (fun x => x.sdiv base) BUFSIZE x
  emit neg buf

/-- The formats that `printf` and `cprintf` print numbers in. -/
inductive Format
  /-- `%d`. -/
  | decimal
  /-- `%x` and `%p`. -/
  | hex

/-- The base of a format. -/
def Format.base : Format → BitVec 32
  | .decimal => 10
  | .hex => 16

/-- Whether a format is signed. -/
def Format.sgn : Format → Bool
  | .decimal => true
  | .hex => false

/-- The number that a word stands for in a format. -/
def Format.value (f : Format) (xx : BitVec 32) : Int :=
  if f.sgn then xx.toInt else xx.toNat

/-! ## Numerals -/

/-- The value of a digit; letters of either case are digits. -/
def digitVal (c : Char) : Option Nat :=
  if '0' ≤ c ∧ c ≤ '9' then some (c.toNat - '0'.toNat)
  else if 'a' ≤ c ∧ c ≤ 'f' then some (c.toNat - 'a'.toNat + 10)
  else if 'A' ≤ c ∧ c ≤ 'F' then some (c.toNat - 'A'.toNat + 10)
  else none

/-- **A text is a numeral of a number**: a sign if the number is negative, and then one or more
digits, most significant first, of its absolute value. -/
def Denotes (b : Nat) (text : List Char) (v : Int) : Prop :=
  ∃ ds body, text = (if v < 0 then ['-'] else []) ++ body ∧
    body.map digitVal = ds.reverse.map some ∧ ds ≠ [] ∧ (∀ d ∈ ds, d < b) ∧
    Nat.ofDigits b ds = v.natAbs

/-- **A text is the shortest numeral of a number.** -/
def Shortest (b : Nat) (text : List Char) (v : Int) : Prop :=
  Denotes b text v ∧ ∀ text', Denotes b text' v → text.length ≤ text'.length

/-! ## The loop -/

section Loop

variable (digits : List Char) (rem : BitVec 32 → Int) (quot : BitVec 32 → BitVec 32) {b : Nat}

theorem digitAt_of_lt {i : Nat} (h : i < digits.length) :
    digitAt digits i = some (digits.getD i ' ') := by
  rw [digitAt, if_pos (Int.natCast_nonneg i), Int.toNat_natCast, List.getElem?_eq_getElem h,
    List.getD_eq_getElem _ _ h]

/-- **The loop stores the numeral** of a word that it divides as a number. -/
theorem digitLoop_eq (hb : 1 < b) (hlen : b ≤ digits.length) {P : BitVec 32 → Prop}
    (hrem : ∀ x, P x → rem x = (x.toNat % b : Nat))
    (hquot : ∀ x, P x → (quot x).toNat = x.toNat / b ∧ P (quot x)) {room : Nat} {x : BitVec 32}
    (hx : P x) (hroom : 0 < room) (hlt : x.toNat < b ^ room) :
    digitLoop digits rem quot room x = some ((numeral b x.toNat).map (digits.getD · ' ')) := by
  induction room generalizing x with
  | zero => exact absurd hroom (lt_irrefl 0)
  | succ room ih =>
      obtain ⟨hq, hnext⟩ := hquot x hx
      have hdigit : x.toNat % b < digits.length :=
        lt_of_lt_of_le (Nat.mod_lt _ (by omega)) hlen
      rw [digitLoop, hrem x hx, digitAt_of_lt digits hdigit, numeral_eq hb]
      by_cases hzero : x.toNat / b = 0
      · have hdone : ¬ quot x ≠ 0 := by
          rw [not_not, ← BitVec.toNat_inj, hq, hzero]
          rfl
        rw [Option.bind_eq_bind, Option.bind_some, if_neg hdone, if_pos hzero]
        rfl
      · have hmore : quot x ≠ 0 := by
          intro h
          rw [h] at hq
          exact hzero hq.symm
        have hlt' : x.toNat / b < b ^ room := Nat.div_lt_of_lt_mul (by rwa [Nat.pow_succ'] at hlt)
        have hroom' : 0 < room := by
          rcases Nat.eq_zero_or_pos room with rfl | h
          · exact absurd (Nat.lt_one_iff.mp hlt') hzero
          · exact h
        rw [← hq] at hlt'
        rw [Option.bind_eq_bind, Option.bind_some, if_pos hmore, if_neg hzero,
          ih hnext hroom' hlt', hq]
        rfl

end Loop

/-! ## What the printers emit -/

/-- The shortest numeral of a number in the digits of a table. -/
def textOf (digits : List Char) (b : Nat) (v : Int) : List Char :=
  (if v < 0 then ['-'] else []) ++ ((numeral b v.natAbs).map (digits.getD · ' ')).reverse

variable (f : Format) (xx : BitVec 32)

theorem Format.one_lt_base : 1 < f.base.toNat := by
  cases f <;> decide

theorem Format.base_le : f.base.toNat ≤ 16 := by
  cases f <;> decide

/-- The sign is printed exactly of negative numbers. -/
theorem isNeg_eq : isNeg xx f.sgn = decide (f.value xx < 0) := by
  cases f with
  | decimal => rfl
  | hex => simp [isNeg, Format.sgn, Format.value]

/-- **The working variable** holds the absolute value, as an unsigned number. -/
theorem toNat_working : (if isNeg xx f.sgn then -xx else xx).toNat = (f.value xx).natAbs := by
  cases f with
  | decimal =>
      simp only [isNeg, Format.sgn, Format.value, Bool.true_and, decide_eq_true_eq, if_true]
      split
      · rw [BitVec.toInt_eq_toNat_cond] at *
        bv_omega
      · rw [BitVec.toInt_eq_toNat_cond] at *
        bv_omega
  | hex => simp [isNeg, Format.sgn, Format.value]

theorem natAbs_value_lt : (f.value xx).natAbs < f.base.toNat ^ 15 := by
  rw [← toNat_working f xx]
  refine lt_of_lt_of_le (BitVec.isLt _) ?_
  cases f <;> decide

theorem working_lt : (if isNeg xx f.sgn then -xx else xx).toNat < f.base.toNat ^ BUFSIZE := by
  rw [toNat_working]
  exact (natAbs_value_lt f xx).trans (Nat.pow_lt_pow_right f.one_lt_base (by decide))

/-- What is left of a printer after its loop. -/
theorem emit_eq (digits : List Char) :
    emit (isNeg xx f.sgn) ((numeral f.base.toNat (f.value xx).natAbs).map (digits.getD · ' ')) =
      some (textOf digits f.base.toNat (f.value xx)) := by
  have hlen : (numeral f.base.toNat (f.value xx).natAbs).length ≤ 15 :=
    length_numeral_le f.one_lt_base (by decide) (natAbs_value_lt f xx)
  rw [emit, textOf, isNeg_eq]
  by_cases hneg : f.value xx < 0
  · rw [if_pos (decide_eq_true hneg), if_pos hneg, if_pos, List.reverse_append]
    · rfl
    · rw [List.length_map]
      exact Nat.lt_succ_of_le hlen
  · rw [if_neg (by simpa using hneg), if_neg hneg, List.nil_append]

/-- **The kernel's printer** emits a numeral of every word. -/
theorem printint_eq :
    printint xx f.base f.sgn = some (textOf kernelDigits f.base.toNat (f.value xx)) := by
  have hloop := digitLoop_eq kernelDigits (fun x => (x % f.base).toNat) (fun x => x / f.base)
    f.one_lt_base f.base_le (P := fun _ => True) (fun x _ => by rw [BitVec.toNat_umod])
    (fun x _ => ⟨BitVec.toNat_udiv, trivial⟩) trivial (by decide) (working_lt f xx)
  rw [toNat_working] at hloop
  rw [printint, hloop]
  exact emit_eq f xx kernelDigits

/-! ## Signed division -/

section Signed

variable {x : BitVec 32}

theorem Format.toInt_base : f.base.toInt = f.base.toNat := by
  cases f <;> decide

/-- A word below `2 ^ 31` has the remainder of its number. -/
theorem toInt_srem_base (hx : x.toNat < 2 ^ 31) :
    (x.srem f.base).toInt = (x.toNat % f.base.toNat : Nat) := by
  rw [BitVec.toInt_srem, f.toInt_base, BitVec.toInt_eq_toNat_of_lt (by omega)]
  rfl

theorem toInt_sdiv_base : (x.sdiv f.base).toInt = x.toInt.tdiv f.base.toNat := by
  have hbase : f.base ≠ -1#32 := by cases f <;> decide
  rw [BitVec.toInt_sdiv_of_ne_or_ne _ _ (.inr hbase), f.toInt_base]

/-- A word below `2 ^ 31` has the quotient of its number. -/
theorem toNat_sdiv_base (hx : x.toNat < 2 ^ 31) :
    (x.sdiv f.base).toNat = x.toNat / f.base.toNat ∧ (x.sdiv f.base).toNat < 2 ^ 31 := by
  have hquot : (x.sdiv f.base).toInt = (x.toNat / f.base.toNat : Nat) := by
    rw [toInt_sdiv_base, BitVec.toInt_eq_toNat_of_lt (by omega)]
    rfl
  have hle : x.toNat / f.base.toNat ≤ x.toNat := Nat.div_le_self _ _
  rw [BitVec.toInt_eq_toNat_cond] at hquot
  generalize x.toNat / f.base.toNat = q at hquot hle ⊢
  split at hquot <;> omega

/-- A negative word has the remainder and the quotient of its absolute value, both negated. -/
theorem signed_of_neg {n : Nat} (hx : x.toInt = -n) :
    (x.srem f.base).toInt = -(n % f.base.toNat : Nat) ∧
      (x.sdiv f.base).toInt = -(n / f.base.toNat : Nat) := by
  constructor
  · rw [BitVec.toInt_srem, f.toInt_base, hx, Int.neg_tmod, Int.ofNat_tmod]
  · rw [toInt_sdiv_base, hx, Int.neg_tdiv, Int.ofNat_tdiv]

/-- **The loop leaves the table** on a negative word: some remainder is negative. -/
theorem userLoop_of_neg (room : Nat) (hx : x.toInt < 0) :
    digitLoop userDigits (fun x => (x.srem f.base).toInt) (fun x => x.sdiv f.base) room x =
      none := by
  induction room generalizing x with
  | zero => rfl
  | succ room ih =>
      obtain ⟨n, hn⟩ : ∃ n : Nat, x.toInt = -n := ⟨x.toInt.natAbs, by omega⟩
      obtain ⟨hrem, hquot⟩ := signed_of_neg f hn
      rw [digitLoop]
      by_cases hdvd : n % f.base.toNat = 0
      · -- the digit is zero and the quotient negative
        have hpos : 0 < n / f.base.toNat := by
          refine Nat.pos_of_ne_zero fun h0 => ?_
          have hdiv := Nat.div_add_mod n f.base.toNat
          rw [h0, hdvd] at hdiv
          omega
        have hneg : (x.sdiv f.base).toInt < 0 := by
          rw [hquot]
          exact Int.neg_neg_of_pos (Int.natCast_pos.mpr hpos)
        have hmore : x.sdiv f.base ≠ 0 := by
          intro h
          rw [h] at hneg
          exact absurd hneg (by decide)
        rw [ih hneg]
        cases digitAt userDigits (x.srem f.base).toInt with
        | none => rfl
        | some c => exact if_pos hmore
      · have hout : digitAt userDigits (x.srem f.base).toInt = none := by
          rw [digitAt, if_neg]
          rw [hrem]
          have : 0 < n % f.base.toNat := Nat.pos_of_ne_zero hdvd
          omega
        rw [hout]
        rfl

end Signed

/-- The words that the user's printer takes as not negative. -/
theorem working_lt_iff :
    (if isNeg xx f.sgn then -xx else xx).toNat < 2 ^ 31 ↔
      0 ≤ xx.toInt ∨ (f.sgn = true ∧ xx ≠ BitVec.intMin 32) := by
  have hmin : xx = BitVec.intMin 32 ↔ xx.toNat = 2 ^ 31 := by
    rw [← BitVec.toNat_inj]
    rfl
  rw [toNat_working, Ne, hmin]
  have hlt := xx.isLt
  cases f with
  | decimal =>
      simp only [Format.value, Format.sgn, if_true, true_and, BitVec.toInt_eq_toNat_cond]
      split <;> omega
  | hex =>
      simp only [Format.value, Format.sgn, Bool.false_eq_true, if_false, false_and, or_false,
        BitVec.toInt_eq_toNat_cond]
      split <;> omega

/-- **The user's printer** emits the same numeral as the kernel's, in other letters, as long as its
working variable is not negative. -/
theorem userPrintint_eq (h : (if isNeg xx f.sgn then -xx else xx).toNat < 2 ^ 31) :
    userPrintint xx f.base f.sgn = some (textOf userDigits f.base.toNat (f.value xx)) := by
  have hloop := digitLoop_eq userDigits (fun x => (x.srem f.base).toInt) (fun x => x.sdiv f.base)
    f.one_lt_base f.base_le (P := fun x => x.toNat < 2 ^ 31) (fun x hx => toInt_srem_base f hx)
    (fun x hx => toNat_sdiv_base f hx) h (by decide) (working_lt f xx)
  rw [toNat_working] at hloop
  rw [userPrintint, hloop]
  exact emit_eq f xx userDigits

theorem userPrintint_of_neg (h : ¬ (if isNeg xx f.sgn then -xx else xx).toNat < 2 ^ 31) :
    userPrintint xx f.base f.sgn = none := by
  have hneg : (if isNeg xx f.sgn then -xx else xx).toInt < 0 := by
    rw [BitVec.toInt_eq_toNat_cond, if_neg (by omega)]
    have := (if isNeg xx f.sgn then -xx else xx).isLt
    omega
  rw [userPrintint, userLoop_of_neg f _ hneg]
  rfl

/-! ## Shortest numerals in both letter cases -/

/-- A table holds the digits in order. -/
def Tabulates (digits : List Char) : Prop := ∀ d < 16, digitVal (digits.getD d ' ') = some d

theorem tabulates_kernelDigits : Tabulates kernelDigits := by
  unfold Tabulates
  decide

theorem tabulates_userDigits : Tabulates userDigits := by
  unfold Tabulates
  decide

theorem denotes_textOf {digits : List Char} (ht : Tabulates digits) (v : Int) :
    Denotes f.base.toNat (textOf digits f.base.toNat v) v := by
  refine ⟨numeral f.base.toNat v.natAbs, _, rfl, ?_, numeral_ne_nil f.one_lt_base _,
    fun d hd => lt_of_mem_numeral f.one_lt_base hd, ofDigits_numeral _⟩
  rw [← List.map_reverse, List.map_map]
  refine List.map_congr_left fun d hd => ht d ?_
  exact lt_of_lt_of_le (lt_of_mem_numeral f.one_lt_base (List.mem_reverse.mp hd)) f.base_le

/-- **The text is the shortest numeral.** -/
theorem shortest_textOf {digits : List Char} (ht : Tabulates digits) (v : Int) :
    Shortest f.base.toNat (textOf digits f.base.toNat v) v := by
  refine ⟨denotes_textOf f ht v, ?_⟩
  rintro text' ⟨ds, body, rfl, hbody, hne, hlt, hval⟩
  have hlen : body.length = ds.length := by
    have := congrArg List.length hbody
    simpa using this
  have hle := length_numeral_le_of_ofDigits f.one_lt_base hne hlt
  rw [hval] at hle
  rw [textOf, List.length_append, List.length_append, List.length_reverse, List.length_map, hlen]
  exact Nat.add_le_add_left hle _

/-- The numerals of the two tables differ in the case of letters only. -/
theorem toLower_textOf (v : Int) :
    (textOf userDigits f.base.toNat v).map Char.toLower = textOf kernelDigits f.base.toNat v := by
  have hdigit : ∀ d < 16, (userDigits.getD d ' ').toLower = kernelDigits.getD d ' ' := by decide
  rw [textOf, textOf, List.map_append, ← List.map_reverse, ← List.map_reverse, List.map_map]
  congr 1
  · split <;> rfl
  · refine List.map_congr_left fun d hd => hdigit d ?_
    exact lt_of_lt_of_le (lt_of_mem_numeral f.one_lt_base (List.mem_reverse.mp hd)) f.base_le

/-- **The two printers denote a word and agree on it**: both stay inside their tables and buffers
and emit its shortest numeral, the same up to the case of letters. -/
def Agree (f : Format) (xx : BitVec 32) : Prop :=
  ∃ kernel user, printint xx f.base f.sgn = some kernel ∧
    userPrintint xx f.base f.sgn = some user ∧
    Shortest f.base.toNat kernel (f.value xx) ∧ Shortest f.base.toNat user (f.value xx) ∧
    user.map Char.toLower = kernel

/-- **The kernel's printer is right for every word.** -/
theorem printint_shortest :
    ∃ text, printint xx f.base f.sgn = some text ∧ Shortest f.base.toNat text (f.value xx) :=
  ⟨_, printint_eq f xx, shortest_textOf f tabulates_kernelDigits _⟩

/-- **The user's printer** is right exactly for the words without the top bit and, in base ten, the
negative words other than the most negative one. -/
theorem printers_agree_iff (f : Format) (xx : BitVec 32) :
    Agree f xx ↔ 0 ≤ xx.toInt ∨ (f.sgn = true ∧ xx ≠ BitVec.intMin 32) := by
  rw [← working_lt_iff]
  constructor
  · rintro ⟨kernel, user, -, huser, -⟩
    by_contra hneg
    rw [userPrintint_of_neg f xx hneg] at huser
    exact nomatch huser
  · intro h
    exact ⟨_, _, printint_eq f xx, userPrintint_eq f xx h, shortest_textOf f tabulates_kernelDigits _,
      shortest_textOf f tabulates_userDigits _, toLower_textOf f _⟩

/-- **The word with all bits set in base sixteen**: the user's printer reads before its table. -/
theorem userPrintint_allOnes :
    printint 0xffffffff 16 false = some ['f', 'f', 'f', 'f', 'f', 'f', 'f', 'f'] ∧
      userPrintint 0xffffffff 16 false = none ∧ ¬ Agree .hex 0xffffffff := by
  have huser : userPrintint 0xffffffff 16 false = none := by decide
  refine ⟨by decide, huser, ?_⟩
  rintro ⟨kernel, user, -, hsome, -⟩
  exact nomatch huser.symm.trans hsome

end Xv6.Print

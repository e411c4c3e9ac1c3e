import Mathlib
import Xv6.Console.Printint

/-! # The two format interpreters

`cprintf` of `console.c` looks at the character behind a `%`, `printf` of `printf.c` keeps the `%` in
its state. A format is the list of its characters without the terminating zero, the arguments are
words, and `str` has the strings in memory. The result is what is emitted; there is none if an
argument is missing or the printer of a number leaves its table. -/

namespace Xv6.Print

section

variable (str : BitVec 32 → List Char)

/-- What `%s` emits for a pointer. -/
def stringAt (s : BitVec 32) : List Char :=
  if s = 0 then ['(', 'n', 'u', 'l', 'l', ')'] else str s

/-- A printer of numbers: of a word, in a base, signed or not. -/
abbrev Printer : Type := BitVec 32 → BitVec 32 → Bool → Option (List Char)

/-- What is emitted for a number, and the arguments that are left. -/
def number (print : Printer) (base : BitVec 32) (sgn : Bool) (args : List (BitVec 32)) :
    Option (List Char × List (BitVec 32)) :=
  args.head?.bind fun x => (print x base sgn).map (·, args.tail)

/-- The conversions that both have: what is emitted for the character behind a `%`. -/
def convert (print : Printer) (c : Char) (args : List (BitVec 32)) :
    Option (List Char × List (BitVec 32)) :=
  if c = 'd' then number print 10 true args
  else if c = 'x' ∨ c = 'p' then number print 16 false args
  else if c = 's' then args.head?.map fun s => (stringAt str s, args.tail)
  else if c = '%' then some (['%'], args)
  -- an unknown sequence is printed to draw attention
  else some (['%', c], args)

/-- **`cprintf`** from a place of the format on. -/
def cprintf : List Char → List (BitVec 32) → Option (List Char)
  | [], _ => some []
  | c :: fmt, args =>
      if c ≠ '%' then (cprintf fmt args).map (c :: ·)
      else
        match fmt with
        | [] => some []
        | c :: fmt => (convert str printint c args).bind fun r =>
            (cprintf fmt r.2).map (r.1 ++ ·)

/-- The conversions of `printf`, of which `%c` is its own. -/
def userConvert (c : Char) (args : List (BitVec 32)) : Option (List Char × List (BitVec 32)) :=
  if c = 'c' then args.head?.map fun x => ([Char.ofNat (x.toNat % 256)], args.tail)
  else convert str userPrintint c args

/-- **`printf`** from a place of the format on; `state` says whether the state is `'%'`. -/
def printf : (state : Bool) → List Char → List (BitVec 32) → Option (List Char)
  | _, [], _ => some []
  | false, c :: fmt, args =>
      if c = '%' then printf true fmt args else (printf false fmt args).map (c :: ·)
  | true, c :: fmt, args => (userConvert str c args).bind fun r =>
      (printf false fmt r.2).map (r.1 ++ ·)

/-- The format has no `%c`, read from a place on with the state of `printf`. -/
def NoChar : (state : Bool) → List Char → Prop
  | _, [] => True
  | false, c :: fmt => NoChar (c = '%') fmt
  | true, c :: fmt => c ≠ 'c' ∧ NoChar false fmt

/-- Texts that are the same up to the case of letters. -/
def SameText (a b : List Char) : Prop := a.map Char.toLower = b.map Char.toLower

variable {args rest : List (BitVec 32)} {out : List Char}

/-- What the user's printer emits the kernel's emits too. -/
theorem number_of_userPrintint (f : Format)
    (h : number userPrintint f.base f.sgn args = some (out, rest)) :
    ∃ text, number printint f.base f.sgn args = some (text, rest) ∧ SameText out text := by
  obtain ⟨xx, hxx, h⟩ := Option.bind_eq_some_iff.mp h
  obtain ⟨user, huser, h⟩ := Option.map_eq_some_iff.mp h
  obtain ⟨rfl, rfl⟩ := Prod.mk.inj h
  refine ⟨_, by rw [number, hxx, Option.bind_some, printint_eq f xx, Option.map_some], ?_⟩
  by_cases hx : (if isNeg xx f.sgn then -xx else xx).toNat < 2 ^ 31
  · obtain rfl := Option.some.inj ((userPrintint_eq f xx hx).symm.trans huser)
    rw [SameText, ← toLower_textOf, List.map_map]
    exact List.map_congr_left fun c _ => (Char.toLower_toLower_eq_toLower c).symm
  · cases (userPrintint_of_neg f xx hx).symm.trans huser

/-- A conversion of `printf` that `cprintf` has too. -/
theorem convert_of_userConvert {c : Char} (hc : c ≠ 'c')
    (h : userConvert str c args = some (out, rest)) :
    ∃ text, convert str printint c args = some (text, rest) ∧ SameText out text := by
  rw [userConvert, if_neg hc] at h
  unfold convert at h ⊢
  by_cases hd : c = 'd'
  · rw [if_pos hd] at h ⊢
    exact number_of_userPrintint .decimal h
  · rw [if_neg hd] at h ⊢
    by_cases hx : c = 'x' ∨ c = 'p'
    · rw [if_pos hx] at h ⊢
      exact number_of_userPrintint .hex h
    · rw [if_neg hx] at h ⊢
      exact ⟨out, h, rfl⟩

/-- **What `printf` prints `cprintf` prints too**, up to the case of letters, for every format
without `%c`: the state machine and the look-ahead read formats alike. -/
theorem cprintf_of_printf {fmt : List Char} (hc : NoChar false fmt)
    (h : printf str false fmt args = some out) :
    ∃ text, cprintf str fmt args = some text ∧ SameText out text := by
  fun_induction cprintf str fmt args generalizing out with
  | case1 => exact ⟨out, h, rfl⟩
  | case2 c fmt args hpct ih =>
      rw [printf, if_neg hpct] at h
      obtain ⟨tail, htail, rfl⟩ := Option.map_eq_some_iff.mp h
      obtain ⟨text, htext, hsame⟩ := ih (by simpa [NoChar, hpct] using hc) htail
      rw [htext]
      exact ⟨c :: text, rfl, congrArg (c.toLower :: ·) hsame⟩
  | case3 c args hpct =>
      rw [printf, if_pos (not_not.mp hpct)] at h
      exact ⟨out, h, rfl⟩
  | case4 c args hpct c' fmt ih =>
      -- the state is `'%'` in front of the character that `cprintf` looks at
      obtain rfl : c = '%' := not_not.mp hpct
      rw [printf, if_pos rfl] at h
      obtain ⟨⟨head, rest⟩, hconv, h⟩ := Option.bind_eq_some_iff.mp h
      obtain ⟨tail, htail, rfl⟩ := Option.map_eq_some_iff.mp h
      obtain ⟨text, hkernel, hsame⟩ := convert_of_userConvert str hc.1 hconv
      obtain ⟨text', htext', hsame'⟩ := ih (text, rest) hc.2 htail
      refine ⟨text ++ text', ?_, ?_⟩
      · rw [hkernel, Option.bind_some, htext', Option.map_some]
      · rw [SameText, List.map_append, hsame, hsame', ← List.map_append]

end

/-- The format `n=%d %x`. -/
theorem cprintf_of_printf_sample :
    ∃ text, cprintf (fun _ => []) ['n', '=', '%', 'd', ' ', '%', 'x'] [-5, 171] = some text ∧
      SameText ['n', '=', '-', '5', ' ', 'A', 'B'] text :=
  cprintf_of_printf _ (by simp [NoChar]) (by decide)

end Xv6.Print

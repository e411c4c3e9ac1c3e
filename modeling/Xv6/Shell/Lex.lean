import Mathlib.Data.List.DropRight
import Mathlib.Data.List.Infix

/-! # The tokens of the shell

`gettoken` and `peek` of `sh.c`. A pointer into the line is the rest of the line from there on; the
end pointer `es` is the empty rest, where the terminating NUL stands. `lex` says what the tokens of
a line are: symbols, of which `>>` is one, and the longest runs of other characters. -/

namespace Xv6.Sh

/-- A pointer into the line: what follows. -/
abbrev Str : Type := List UInt8

/-- The characters `whitespace`: `" \t\r\n\v"`. -/
def whitespace : List UInt8 := [32, 9, 13, 10, 11]

/-- The characters `symbols`: `"<|>&;()"`. -/
def symbols : List UInt8 := [60, 124, 62, 38, 59, 40, 41]

/-- A character of a word. -/
def isWord (c : UInt8) : Bool := !whitespace.contains c && !symbols.contains c

/-- `while(s < es && strchr(whitespace, *s)) s++`. -/
def skip (s : Str) : Str := s.dropWhile whitespace.contains

/-- `while(s < es && !strchr(whitespace, *s) && !strchr(symbols, *s)) s++`. -/
def skipWord (s : Str) : Str := s.dropWhile isWord

/-- Where a token starts and ends: the pointers `q` and `eq`. -/
structure Span where
  q : Str
  eq : Str

/-- The characters of a token. -/
def Span.text (w : Span) : Str := w.q.take (w.q.length - w.eq.length)

/-- **`gettoken`**: the kind of the token, its place and what follows it. -/
def gettoken (s : Str) : UInt8 × Span × Str :=
  let q := skip s
  match q with
  | [] => (0, ⟨q, q⟩, skip q)
  | c :: t =>
      if c = 62 then
        match t with
        | 62 :: t' => (43, ⟨q, t'⟩, skip t')
        | _ => (62, ⟨q, t⟩, skip t)
      else if symbols.contains c then (c, ⟨q, t⟩, skip t)
      else (97, ⟨q, skipWord q⟩, skip (skipWord q))

/-- **`peek`**: whether the next token starts with one of the characters, and the place there. -/
def peek (s : Str) (toks : List UInt8) : Bool × Str :=
  let s := skip s
  match s with
  | [] => (false, s)
  | c :: _ => (toks.contains c, s)

/-! ## Tokens -/

/-- **A token.** -/
inductive Tok
  | bar
  | lparen
  | rparen
  | semi
  | amp
  | lt
  | gt
  | gtgt
  | word (w : Str)
  deriving DecidableEq

/-- What `gettoken` returns for a token. -/
def Tok.code : Tok → UInt8
  | .bar => 124
  | .lparen => 40
  | .rparen => 41
  | .semi => 59
  | .amp => 38
  | .lt => 60
  | .gt => 62
  | .gtgt => 43
  | .word _ => 97

/-- The symbol that a token starts with, and NUL for a word. -/
def Tok.lead : Tok → UInt8
  | .gtgt => 62
  | .word _ => 0
  | t => t.code

/-- The token of a single symbol. -/
def symbol (c : UInt8) : Tok :=
  if c = 124 then .bar
  else if c = 40 then .lparen
  else if c = 41 then .rparen
  else if c = 59 then .semi
  else if c = 38 then .amp
  else if c = 60 then .lt
  else .gt

theorem length_skip_lt {s t : Str} {c : UInt8} (h : skip s = c :: t) : t.length < s.length := by
  have hle : (skip s).length ≤ s.length := (List.dropWhile_suffix _).length_le
  rw [h] at hle
  exact hle

theorem length_skipWord_le (s : Str) : (skipWord s).length ≤ s.length :=
  (List.dropWhile_suffix _).length_le

/-- **The tokens of a line.** -/
def lex (s : Str) : List Tok :=
  match hskip : skip s with
  | [] => []
  | c :: t =>
      have hlt : t.length < s.length := length_skip_lt hskip
      have htail : t.tail.length ≤ t.length := by simp
      have hword : (skipWord t).length ≤ t.length := length_skipWord_le t
      if c = 62 ∧ t.head? = some 62 then .gtgt :: lex t.tail
      else if symbols.contains c then symbol c :: lex t
      else .word ((c :: t).takeWhile isWord) :: lex (skipWord t)
termination_by s.length

theorem lex_of_nil {s : Str} (h : skip s = []) : lex s = [] := by
  unfold lex
  split
  · rfl
  · rename_i heq
    rw [h] at heq
    cases heq

theorem lex_of_cons {s t : Str} {c : UInt8} (h : skip s = c :: t) :
    lex s = if c = 62 ∧ t.head? = some 62 then .gtgt :: lex t.tail
      else if symbols.contains c then symbol c :: lex t
      else .word ((c :: t).takeWhile isWord) :: lex (skipWord t) := by
  rw [lex]
  split
  · rename_i heq
    rw [h] at heq
    cases heq
  · rename_i heq
    rw [h] at heq
    cases heq
    rfl

theorem skip_skip (s : Str) : skip (skip s) = skip s := List.dropWhile_idempotent ..

/-- Blanks before a token do not matter. -/
theorem lex_skip (s : Str) : lex (skip s) = lex s := by
  cases h : skip s with
  | nil => rw [lex_of_nil h, lex_of_nil rfl]
  | cons c t =>
      have hskip : skip (c :: t) = c :: t := by rw [← h, skip_skip]
      rw [lex_of_cons h, lex_of_cons hskip]

theorem skip_suffix (s : Str) : skip s <:+ s := List.dropWhile_suffix _

/-- Where dropping stops. -/
theorem not_of_dropWhile {f : UInt8 → Bool} {s t : Str} {c : UInt8} (h : s.dropWhile f = c :: t) :
    f c = false := by
  have hidem : (s.dropWhile f).dropWhile f = s.dropWhile f := List.dropWhile_idempotent ..
  rw [h] at hidem
  by_contra hc
  have hlt : ((c :: t).dropWhile f).length < (c :: t).length := by
    rw [List.dropWhile_cons_of_pos (by simpa using hc)]
    exact Nat.lt_succ_of_le (List.dropWhile_suffix _).length_le
  rw [hidem] at hlt
  exact lt_irrefl _ hlt

/-! ## What `peek` and `gettoken` say about the tokens -/

/-- A word of a line: the longest run of characters of words at its place. -/
structure Span.Good (s : Str) (w : Span) (text : Str) : Prop where
  suffix : w.q <:+ s
  split : w.q = text ++ w.eq
  word : ∀ c ∈ text, isWord c = true
  longest : ∀ c ∈ w.eq.head?, isWord c = false

theorem Span.Good.text {s : Str} {w : Span} {text : Str} (h : w.Good s text) : w.text = text := by
  unfold Span.text
  rw [h.split]
  simp

theorem Span.Good.mono {s s' : Str} {w : Span} {text : Str} (h : w.Good s text) (hs : s <:+ s') :
    w.Good s' text :=
  ⟨h.suffix.trans hs, h.split, h.word, h.longest⟩

/-- The tokens that symbols stand for. -/
theorem code_symbol {c : UInt8} (h : symbols.contains c = true) :
    (symbol c).code = c ∧ (symbol c).lead = c := by
  simp only [symbols, List.contains_cons, List.contains_nil, Bool.or_false, Bool.or_eq_true,
    beq_iff_eq] at h
  rcases h with rfl | rfl | rfl | rfl | rfl | rfl | rfl <;> decide

theorem symbol_ne_word (c : UInt8) (w : Str) : symbol c ≠ .word w := by
  unfold symbol
  repeat' split
  all_goals exact fun h => Tok.noConfusion h

theorem skip_eq_nil {s : Str} (h : lex s = []) : skip s = [] := by
  cases hskip : skip s with
  | nil => rfl
  | cons c t =>
      rw [lex_of_cons hskip] at h
      split at h
      · cases h
      · split at h <;> cases h

/-- **`gettoken` at the end of the line.** -/
theorem gettoken_nil {s : Str} (h : lex s = []) : gettoken s = (0, ⟨[], []⟩, []) := by
  unfold gettoken
  simp only [skip_eq_nil h]
  rfl

/-- **What `gettoken` returns**: the next token. -/
structure Got (s : Str) (t : Tok) (g : UInt8 × Span × Str) : Prop where
  code : g.1 = t.code
  word : ∀ w, t = .word w → g.2.1.Good s w
  suffix : g.2.2 <:+ s

theorem gettoken_cons {s : Str} {t : Tok} {ts : List Tok} (h : lex s = t :: ts) :
    Got s t (gettoken s) ∧ lex (gettoken s).2.2 = ts := by
  cases hskip : skip s with
  | nil =>
      rw [lex_of_nil hskip] at h
      cases h
  | cons c u =>
      have hq : c :: u <:+ s := hskip ▸ skip_suffix s
      have hu : u <:+ s := (List.suffix_cons c u).trans hq
      rw [lex_of_cons hskip] at h
      unfold gettoken
      simp only [hskip]
      split at h
      · rename_i hgg
        obtain ⟨rfl, htail⟩ := hgg
        cases u with
        | nil => cases htail
        | cons d v =>
            obtain rfl : d = 62 := Option.some.inj htail
            cases h
            refine ⟨⟨rfl, fun w hw => (nomatch hw), ?_⟩, lex_skip v⟩
            exact (skip_suffix v).trans ((List.suffix_cons 62 v).trans hu)
      · rename_i hgg
        split at h
        · rename_i hsym
          cases h
          by_cases hgt : c = 62
          · subst hgt
            rw [if_pos rfl]
            have hnext : ∀ v, u ≠ 62 :: v := fun v hv => hgg ⟨rfl, by rw [hv]; rfl⟩
            split
            · rename_i v
              exact absurd rfl (hnext v)
            · exact ⟨⟨rfl, fun w hw => (nomatch hw), (skip_suffix u).trans hu⟩, lex_skip u⟩
          · rw [if_neg hgt, if_pos hsym]
            exact ⟨⟨(code_symbol hsym).1.symm, fun w hw => absurd hw (symbol_ne_word c w),
              (skip_suffix u).trans hu⟩, lex_skip u⟩
        · rename_i hsym
          cases h
          have hgt : c ≠ 62 := fun heq => hsym (heq ▸ by decide)
          have hword : isWord c = true := by
            rw [isWord, not_of_dropWhile hskip, Bool.eq_false_iff.mpr hsym]
            rfl
          have hrest : skipWord (c :: u) = skipWord u := List.dropWhile_cons_of_pos hword
          rw [if_neg hgt, if_neg hsym, hrest]
          refine ⟨⟨rfl, fun w hw => ?_, ?_⟩, lex_skip _⟩
          · cases hw
            refine ⟨hq, ?_, fun d hd => List.mem_takeWhile_imp hd, fun d hd => ?_⟩
            · show c :: u = _ ++ skipWord u
              rw [← hrest]
              exact List.takeWhile_append_dropWhile.symm
            · change d ∈ (skipWord u).head? at hd
              cases hs : skipWord u with
              | nil =>
                  rw [hs] at hd
                  cases hd
              | cons e v =>
                  rw [hs] at hd
                  obtain rfl : e = d := Option.some.inj hd
                  exact not_of_dropWhile hs
          · exact (skip_suffix _).trans ((List.dropWhile_suffix _).trans hu)

/-- **`peek`** looks at the symbol that the next token starts with. -/
theorem peek_eq (s : Str) {toks : List UInt8} (h : toks.all (symbols.contains ·) = true) :
    peek s toks = ((lex s).head?.any fun t => toks.contains t.lead, skip s) := by
  have hsub : ∀ c ∈ toks, c ∈ symbols := fun c hc =>
    List.contains_iff_mem.mp (List.all_eq_true.mp h c hc)
  unfold peek
  cases hskip : skip s with
  | nil => rw [lex_of_nil hskip]; rfl
  | cons c u =>
      rw [lex_of_cons hskip]
      show (toks.contains c, c :: u) = _
      split
      · rename_i hgg
        rw [hgg.1]
        rfl
      · split
        · rename_i hsym
          show _ = (toks.contains (symbol c).lead, c :: u)
          rw [(code_symbol hsym).2]
        · rename_i hsym
          have hc : toks.contains c = false := by
            rw [List.contains_eq_mem, decide_eq_false_iff_not]
            intro hmem
            exact hsym (List.contains_iff_mem.mpr (hsub c hmem))
          have h0 : toks.contains 0 = false := by
            rw [List.contains_eq_mem, decide_eq_false_iff_not]
            intro hmem
            exact absurd (hsub 0 hmem) (by decide)
          show _ = (toks.contains 0, c :: u)
          rw [hc, h0]

end Xv6.Sh

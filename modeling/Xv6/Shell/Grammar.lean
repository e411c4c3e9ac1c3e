import Xv6.Shell.Parse

/-! # The grammar of the shell

What the parser should accept, over the tokens of a line:

* `line ::= pipe {"&"} [";" line]`
* `pipe ::= exec ["|" pipe]`
* `exec ::= "(" line ")" redirs | redirs {word redirs}`, with at most nine words
* `redirs ::= {("<" | ">" | ">>") word}`

Each derivation gives a command. A parse that returns has found a derivation of what it has
consumed. -/

namespace Xv6.Sh

/-- The mode and the descriptor of a redirection. -/
def redirOf : Tok → Option (Nat × Nat)
  | .lt => some (O_RDONLY, 0)
  | .gt => some (O_WRONLY ||| O_CREATE, 1)
  | .gtgt => some (O_WRONLY ||| O_CREATE, 1)
  | _ => none

/-- `redirs`. -/
inductive Redirs : List Tok → List (Redir Str) → Prop
  | nil : Redirs [] []
  | cons {t : Tok} {w : Str} {mode fd : Nat} {ts : List Tok} {rs : List (Redir Str)}
      (ht : redirOf t = some (mode, fd)) (h : Redirs ts rs) :
      Redirs (t :: .word w :: ts) (⟨w, mode, fd⟩ :: rs)

/-- `{word redirs}`. -/
inductive Words : List Tok → List Str → List (Redir Str) → Prop
  | nil : Words [] [] []
  | cons {w : Str} {us ts : List Tok} {ws : List Str} {rs rs' : List (Redir Str)}
      (hr : Redirs us rs) (h : Words ts ws rs') :
      Words (.word w :: (us ++ ts)) (w :: ws) (rs ++ rs')

/-- The symbols of the grammar that commands derive from. -/
inductive Symbol
  | line
  | pipe
  | exec

/-- **The grammar.** -/
inductive Derives : Symbol → List Tok → Cmd Str → Prop
  | line {ts : List Tok} {c : Cmd Str} (h : Derives .pipe ts c) (k : Nat) :
      Derives .line (ts ++ List.replicate k .amp) (c.backs k)
  | list {ts us : List Tok} {c d : Cmd Str} (h : Derives .pipe ts c) (k : Nat)
      (h' : Derives .line us d) :
      Derives .line (ts ++ List.replicate k .amp ++ .semi :: us) (.list (c.backs k) d)
  | exec {ts : List Tok} {c : Cmd Str} (h : Derives .exec ts c) : Derives .pipe ts c
  | pipe {ts us : List Tok} {c d : Cmd Str} (h : Derives .exec ts c) (h' : Derives .pipe us d) :
      Derives .pipe (ts ++ .bar :: us) (.pipe c d)
  | block {ts us : List Tok} {c : Cmd Str} {rs : List (Redir Str)} (h : Derives .line ts c)
      (hr : Redirs us rs) : Derives .exec (.lparen :: (ts ++ .rparen :: us)) (c.redirs rs)
  | words {us ts : List Tok} {ws : List Str} {rs rs' : List (Redir Str)} (hr : Redirs us rs)
      (h : Words ts ws rs') (hmax : ws.length ≤ 9) :
      Derives .exec (us ++ ts) ((Cmd.exec ws).redirs (rs ++ rs'))

/-! ## Commands with places and commands with texts -/

/-- Change the file. -/
def Redir.map {α β : Type} (f : α → β) (r : Redir α) : Redir β := ⟨f r.file, r.mode, r.fd⟩

namespace Cmd

variable {α β : Type}

theorem map_redirs (f : α → β) (c : Cmd α) (rs : List (Redir α)) :
    (c.redirs rs).map f = (c.map f).redirs (rs.map (Redir.map f)) := by
  induction rs generalizing c with
  | nil => rfl
  | cons r rs ih => exact ih _

theorem words_redirs (c : Cmd α) (rs : List (Redir α)) :
    (c.redirs rs).words = c.words ++ rs.map Redir.file := by
  induction rs generalizing c with
  | nil => simp [redirs]
  | cons r rs ih => simp [redirs, ih, words]

theorem map_backs (f : α → β) (c : Cmd α) (k : Nat) : (c.backs k).map f = (c.map f).backs k := by
  induction k generalizing c with
  | zero => rfl
  | succ k ih => exact ih _

theorem words_backs (c : Cmd α) (k : Nat) : (c.backs k).words = c.words := by
  induction k generalizing c with
  | zero => rfl
  | succ k ih => exact ih _

end Cmd

/-! ## Tokens in the parser -/

/-- The next token starts with one of the symbols. -/
def peeks (toks : List UInt8) (ts : List Tok) : Bool := ts.head?.any fun t => toks.contains t.lead

theorem peeks_eq_true {toks : List UInt8} {ts : List Tok} (h : peeks toks ts = true) :
    ∃ t us, ts = t :: us ∧ toks.contains t.lead = true := by
  cases ts with
  | nil => cases h
  | cons t us => exact ⟨t, us, rfl, h⟩

/-- The token at a place that `peek` has moved to. -/
theorem gettoken_skip {s : Str} {t : Tok} {ts : List Tok} (h : lex s = t :: ts) :
    Got s t (gettoken (skip s)) ∧ lex (gettoken (skip s)).2.2 = ts := by
  rw [← lex_skip] at h
  obtain ⟨hgot, hrest⟩ := gettoken_cons h
  exact ⟨⟨hgot.code, fun w hw => (hgot.word w hw).mono (skip_suffix s),
    hgot.suffix.trans (skip_suffix s)⟩, hrest⟩

theorem code_ne_zero (t : Tok) : t.code ≠ 0 := by
  cases t with
  | word w => exact (by decide : (97 : UInt8) ≠ 0)
  | _ => decide

theorem eq_word_of_code {t : Tok} (h : t.code = 97) : ∃ w, t = .word w := by
  cases t with
  | word w => exact ⟨w, rfl⟩
  | _ => exact absurd h (by decide)

/-- A token that starts a redirection. -/
theorem redirOf_of_lead {t : Tok} (h : [(60 : UInt8), 62].contains t.lead = true) :
    ∃ mode fd, redirOf t = some (mode, fd) ∧ ∀ w, redirection t.code w = [⟨w, mode, fd⟩] := by
  cases t with
  | lt => exact ⟨_, _, rfl, fun w => rfl⟩
  | gt => exact ⟨_, _, rfl, fun w => rfl⟩
  | gtgt => exact ⟨_, _, rfl, fun w => rfl⟩
  | word w => exact absurd (show [(60 : UInt8), 62].contains 0 = true from h) (by decide)
  | _ => exact absurd h (by decide)

theorem lead_of_redirOf {t : Tok} {r : Nat × Nat} (h : redirOf t = some r) :
    [(60 : UInt8), 62].contains t.lead = true := by
  cases t with
  | lt => decide
  | gt => decide
  | gtgt => decide
  | _ => cases h

/-- A token is known by the symbol it starts with, unless that is `>` or it is a word. -/
theorem eq_of_lead {t u : Tok} {c : UInt8} (hc : c ≠ 0 ∧ c ≠ 62) (hu : u.lead = c)
    (h : [c].contains t.lead = true) : t = u := by
  have ht : t.lead = c := by simpa using h
  obtain ⟨h0, hgt⟩ := hc
  subst hu
  cases t <;> cases u <;>
    first
    | rfl
    | exact absurd rfl h0
    | exact absurd rfl hgt
    | exact absurd ht (by decide)
    | exact absurd ht.symm h0

/-- All places of a list are those of words. -/
def GoodWords (s : Str) (ws : List Span) : Prop := ∀ w ∈ ws, ∃ text, w.Good s text

variable {s s' : Str} {rs : List (Redir Span)}

theorem GoodWords.mono {ws : List Span} (h : GoodWords s ws) (hs : s <:+ s') : GoodWords s' ws := by
  intro w hw
  obtain ⟨text, hgood⟩ := h w hw
  exact ⟨text, hgood.mono hs⟩

theorem GoodWords.append {s : Str} {ws ws' : List Span} (h : GoodWords s ws) (h' : GoodWords s ws') :
    GoodWords s (ws ++ ws') := by
  intro w hw
  rcases List.mem_append.mp hw with hw | hw
  · exact h w hw
  · exact h' w hw

/-! ## What is returned has been derived -/

/-- The redirections found between two places. -/
structure RedirsAt (s : Str) (rs : List (Redir Span)) (s' : Str) : Prop where
  suffix : s' <:+ s
  derives : ∃ ts, lex s = ts ++ lex s' ∧ Redirs ts (rs.map (Redir.map Span.text))
  words : GoodWords s (rs.map Redir.file)

theorem parseredirs_sound {fuel : Nat} (h : parseredirs fuel s = .ok (rs, s')) :
    RedirsAt s rs s' := by
  induction fuel generalizing s s' rs with
  | zero => cases h
  | succ fuel ih =>
      simp only [parseredirs] at h
      rw [peek_eq s (by decide)] at h
      split at h
      · rename_i hpeek
        obtain ⟨t, ts, hlex, hlead⟩ := peeks_eq_true hpeek
        obtain ⟨hgot, hrest⟩ := gettoken_skip hlex
        generalize gettoken (skip s) = g at h hgot hrest
        split at h
        · cases h
        · rename_i hword
          have hcode : (gettoken g.2.2).1 = 97 := not_not.mp hword
          cases hts : lex g.2.2 with
          | nil =>
              rw [gettoken_nil hts] at hcode
              cases hcode
          | cons t' us =>
              obtain ⟨hgot', hrest'⟩ := gettoken_cons hts
              rw [hgot'.code] at hcode
              obtain ⟨w, rfl⟩ := eq_word_of_code hcode
              generalize gettoken g.2.2 = g' at h hgot' hrest'
              split at h
              · cases h
              · rename_i rs₁ s₁ hmore
                cases h
                have hih := ih hmore
                obtain ⟨us', hus, hder⟩ := hih.derives
                obtain ⟨mode, fd, hredir, hnew⟩ := redirOf_of_lead hlead
                have hsuffix := hgot'.suffix.trans hgot.suffix
                rw [hgot.code, hnew]
                have hgood := (hgot'.word w rfl).mono hgot.suffix
                refine ⟨hih.suffix.trans hsuffix, ⟨t :: .word w :: us', ?_, ?_⟩, ?_⟩
                · rw [hlex, ← hrest, hts, ← hrest', hus]
                  rfl
                · have htext : (Redir.map Span.text ⟨g'.2.1, mode, fd⟩) = ⟨w, mode, fd⟩ := by
                    unfold Redir.map
                    rw [hgood.text]
                  rw [List.singleton_append, List.map_cons, htext]
                  exact .cons hredir hder
                · intro v hv
                  rcases List.mem_cons.mp hv with rfl | hv
                  · exact ⟨w, hgood⟩
                  · exact hih.words.mono hsuffix v hv
      · cases h
        refine ⟨skip_suffix s, ⟨[], ?_, .nil⟩, fun w hw => (nomatch hw)⟩
        rw [lex_skip]
        rfl

/-- The words and redirections found between two places, after `argv` and `rs`. -/
structure ArgsAt (s : Str) (argv : List Span) (rs : List (Redir Span)) (cmd : Cmd Span) (s' : Str)
    (ws : List Span) (rs' : List (Redir Span)) : Prop where
  suffix : s' <:+ s
  cmd : cmd = (Cmd.exec (argv ++ ws)).redirs (rs ++ rs')
  derives : ∃ ts, lex s = ts ++ lex s' ∧
    Words ts (ws.map Span.text) (rs'.map (Redir.map Span.text))
  words : GoodWords s (ws ++ rs'.map Redir.file)
  count : argv.length + ws.length < MAXARGS

/-- The loop of `parseexec` ends where it is. -/
theorem argsAt_nil {argv : List Span} (hargv : argv.length < MAXARGS) (hsuffix : s' <:+ s)
    (hlex : lex s' = lex s) :
    ArgsAt s argv rs ((Cmd.exec argv).redirs rs) s' [] [] := by
  refine ⟨hsuffix, by rw [List.append_nil, List.append_nil], ⟨[], ?_, .nil⟩,
    fun w hw => (nomatch hw), hargv⟩
  rw [hlex]
  rfl

theorem parseargs_sound {fuel : Nat} {argv : List Span} {cmd : Cmd Span}
    (h : parseargs fuel argv rs s = .ok (cmd, s')) (hargv : argv.length < MAXARGS) :
    ∃ ws rs', ArgsAt s argv rs cmd s' ws rs' := by
  induction fuel generalizing s argv rs with
  | zero => cases h
  | succ fuel ih =>
      simp only [parseargs] at h
      rw [peek_eq s (by decide)] at h
      split at h
      · cases h
        exact ⟨[], [], argsAt_nil hargv (skip_suffix s) (lex_skip s)⟩
      · cases hlex : lex s with
        | nil =>
            have hnil : lex (skip s) = [] := (lex_skip s).trans hlex
            rw [show gettoken (_, skip s).2 = _ from gettoken_nil hnil, if_pos rfl] at h
            cases h
            refine ⟨[], [], argsAt_nil hargv (List.nil_suffix) ?_⟩
            rw [hlex, lex_of_nil rfl]
        | cons t ts =>
            obtain ⟨hgot, hrest⟩ := gettoken_skip hlex
            generalize gettoken (skip s) = g at h hgot hrest
            rw [hgot.code, if_neg (code_ne_zero t)] at h
            split at h
            · cases h
            · rename_i hcode
              obtain ⟨w, rfl⟩ := eq_word_of_code (not_not.mp hcode)
              split at h
              · cases h
              · rename_i hcount
                split at h
                · cases h
                · rename_i rs₁ s₁ hredirs
                  have hr := parseredirs_sound hredirs
                  have hlen : (argv ++ [g.2.1]).length < MAXARGS := by
                    rw [List.length_append, List.length_singleton]
                    exact not_le.mp hcount
                  obtain ⟨ws, rs', hat⟩ := ih h hlen
                  obtain ⟨us, hus, hder⟩ := hr.derives
                  obtain ⟨vs, hvs, hder'⟩ := hat.derives
                  have hgood := hgot.word w rfl
                  refine ⟨g.2.1 :: ws, rs₁ ++ rs', hat.suffix.trans (hr.suffix.trans hgot.suffix), ?_,
                    ⟨.word w :: (us ++ vs), ?_, ?_⟩, ?_, ?_⟩
                  · rw [hat.cmd, List.append_assoc, List.append_assoc]
                    rfl
                  · rw [hlex, ← hrest, hus, hvs]
                    simp
                  · rw [List.map_cons, hgood.text, List.map_append]
                    exact .cons hder hder'
                  · rw [List.map_append]
                    intro v hv
                    simp only [List.cons_append, List.mem_cons, List.mem_append] at hv
                    have hmono := hr.suffix.trans hgot.suffix
                    rcases hv with rfl | hv | hv | hv
                    · exact ⟨w, hgood⟩
                    · exact hat.words.mono hmono v (List.mem_append_left _ hv)
                    · exact hr.words.mono hgot.suffix v hv
                    · exact hat.words.mono hmono v (List.mem_append_right _ hv)
                  · have := hat.count
                    simp only [List.length_append, List.length_cons] at this ⊢
                    omega

theorem parsebacks_sound {fuel : Nat} {cmd cmd' : Cmd Span}
    (h : parsebacks fuel cmd s = .ok (cmd', s')) :
    s' <:+ s ∧ ∃ k, cmd' = cmd.backs k ∧ lex s = List.replicate k .amp ++ lex s' := by
  induction fuel generalizing s cmd with
  | zero => cases h
  | succ fuel ih =>
      simp only [parsebacks] at h
      rw [peek_eq s (by decide)] at h
      split at h
      · rename_i hpeek
        obtain ⟨t, ts, hlex, hlead⟩ := peeks_eq_true hpeek
        obtain ⟨hgot, hrest⟩ := gettoken_skip hlex
        obtain ⟨hsuffix, k, hcmd, hk⟩ := ih h
        refine ⟨hsuffix.trans hgot.suffix, k + 1, hcmd, ?_⟩
        rw [hlex, ← hrest, hk, eq_of_lead (u := .amp) (by decide) rfl hlead]
        rfl
      · cases h
        exact ⟨skip_suffix s, 0, rfl, (lex_skip s).symm⟩

/-- A command found between two places. -/
structure ParsedAt (n : Symbol) (s : Str) (cmd : Cmd Span) (s' : Str) : Prop where
  suffix : s' <:+ s
  derives : ∃ ts, lex s = ts ++ lex s' ∧ Derives n ts (cmd.map Span.text)
  words : GoodWords s cmd.words

/-- The four functions find what they are for, with a given bound. -/
structure Sound (fuel : Nat) : Prop where
  line : ∀ {s cmd s'}, parseline fuel s = .ok (cmd, s') → ParsedAt .line s cmd s'
  pipe : ∀ {s cmd s'}, parsepipe fuel s = .ok (cmd, s') → ParsedAt .pipe s cmd s'
  exec : ∀ {s cmd s'}, parseexec fuel s = .ok (cmd, s') → ParsedAt .exec s cmd s'
  block : ∀ {s cmd s'}, parseblock fuel s = .ok (cmd, s') → ParsedAt .exec s cmd s'

section

variable {fuel : Nat} {s s' : Str} {cmd : Cmd Span}

theorem Sound.line_succ (ih : Sound fuel) (h : parseline (fuel + 1) s = .ok (cmd, s')) :
    ParsedAt .line s cmd s' := by
  rw [parseline] at h
  split at h
  · cases h
  · rename_i c₁ s₁ hpipe
    have hp := ih.pipe hpipe
    obtain ⟨ts, hts, hder⟩ := hp.derives
    split at h
    · cases h
    · rename_i c₂ s₂ hbacks
      obtain ⟨hsuffix, k, rfl, hk⟩ := parsebacks_sound hbacks
      simp only at h
      rw [peek_eq s₂ (by decide)] at h
      split at h
      · rename_i hpeek
        obtain ⟨t, us, hlex, hlead⟩ := peeks_eq_true hpeek
        obtain ⟨hgot, hrest⟩ := gettoken_skip hlex
        split at h
        · cases h
        · rename_i right s₃ hline
          cases h
          have hl := ih.line hline
          obtain ⟨vs, hvs, hder'⟩ := hl.derives
          have hmono := hgot.suffix.trans (hsuffix.trans hp.suffix)
          refine ⟨hl.suffix.trans hmono, ⟨ts ++ List.replicate k .amp ++ .semi :: vs, ?_, ?_⟩, ?_⟩
          · rw [hts, hk, hlex, eq_of_lead (u := .semi) (by decide) rfl hlead, ← hrest, hvs]
            simp
          · rw [Cmd.map, Cmd.map_backs]
            exact .list hder k hder'
          · rw [Cmd.words, Cmd.words_backs]
            exact hp.words.append (hl.words.mono hmono)
      · cases h
        refine ⟨(skip_suffix s₂).trans (hsuffix.trans hp.suffix), ⟨ts ++ List.replicate k .amp, ?_, ?_⟩,
          ?_⟩
        · rw [hts, hk, lex_skip, List.append_assoc]
        · rw [Cmd.map_backs]
          exact .line hder k
        · rw [Cmd.words_backs]
          exact hp.words

theorem Sound.pipe_succ (ih : Sound fuel) (h : parsepipe (fuel + 1) s = .ok (cmd, s')) :
    ParsedAt .pipe s cmd s' := by
  rw [parsepipe] at h
  split at h
  · cases h
  · rename_i c₁ s₁ hexec
    have he := ih.exec hexec
    obtain ⟨ts, hts, hder⟩ := he.derives
    simp only at h
    rw [peek_eq s₁ (by decide)] at h
    split at h
    · rename_i hpeek
      obtain ⟨t, us, hlex, hlead⟩ := peeks_eq_true hpeek
      obtain ⟨hgot, hrest⟩ := gettoken_skip hlex
      split at h
      · cases h
      · rename_i right s₂ hpipe
        cases h
        have hp := ih.pipe hpipe
        obtain ⟨vs, hvs, hder'⟩ := hp.derives
        have hmono := hgot.suffix.trans he.suffix
        refine ⟨hp.suffix.trans hmono, ⟨ts ++ .bar :: vs, ?_, .pipe hder hder'⟩,
          he.words.append (hp.words.mono hmono)⟩
        rw [hts, hlex, eq_of_lead (u := .bar) (by decide) rfl hlead, ← hrest, hvs]
        simp
    · cases h
      refine ⟨(skip_suffix s₁).trans he.suffix, ⟨ts, ?_, .exec hder⟩, he.words⟩
      rw [hts, lex_skip]

theorem Sound.exec_succ (ih : Sound fuel) (h : parseexec (fuel + 1) s = .ok (cmd, s')) :
    ParsedAt .exec s cmd s' := by
  rw [parseexec] at h
  rw [peek_eq s (by decide)] at h
  split at h
  · have hb := ih.block h
    obtain ⟨ts, hts, hder⟩ := hb.derives
    refine ⟨hb.suffix.trans (skip_suffix s), ⟨ts, ?_, hder⟩, hb.words.mono (skip_suffix s)⟩
    rw [← lex_skip]
    exact hts
  · split at h
    · cases h
    · rename_i rs s₁ hredirs
      have hr := parseredirs_sound hredirs
      obtain ⟨ws, rs', hat⟩ := parseargs_sound h (by decide)
      obtain ⟨us, hus, hder⟩ := hr.derives
      obtain ⟨ts, hts, hder'⟩ := hat.derives
      have hcmd := hat.cmd
      rw [List.nil_append] at hcmd
      have hcount := hat.count
      refine ⟨hat.suffix.trans (hr.suffix.trans (skip_suffix s)), ⟨us ++ ts, ?_, ?_⟩, ?_⟩
      · rw [← lex_skip, List.append_assoc, ← hts]
        exact hus
      · rw [hcmd, Cmd.map_redirs, List.map_append]
        refine .words hder hder' ?_
        rw [List.length_map]
        unfold MAXARGS at hcount
        simp only [List.length_nil, Nat.zero_add] at hcount
        omega
      · rw [hcmd, Cmd.words_redirs, List.map_append, Cmd.words]
        intro w hw
        simp only [List.mem_append] at hw
        have hargs := hat.words.mono (hr.suffix.trans (skip_suffix s))
        rcases hw with hw | hw | hw
        · exact hargs w (List.mem_append_left _ hw)
        · exact hr.words.mono (skip_suffix s) w hw
        · exact hargs w (List.mem_append_right _ hw)

theorem Sound.block_succ (ih : Sound fuel) (h : parseblock (fuel + 1) s = .ok (cmd, s')) :
    ParsedAt .exec s cmd s' := by
  rw [parseblock] at h
  rw [peek_eq s (by decide)] at h
  split at h
  · rename_i hpeek
    obtain ⟨t, us, hlex, hlead⟩ := peeks_eq_true hpeek
    obtain ⟨hgot, hrest⟩ := gettoken_skip hlex
    split at h
    · cases h
    · rename_i c₁ s₁ hline
      have hl := ih.line hline
      obtain ⟨ts, hts, hder⟩ := hl.derives
      simp only at h
      rw [peek_eq s₁ (by decide)] at h
      split at h
      · rename_i hpeek'
        obtain ⟨t', us', hlex', hlead'⟩ := peeks_eq_true hpeek'
        obtain ⟨hgot', hrest'⟩ := gettoken_skip hlex'
        split at h
        · cases h
        · rename_i rs s₂ hredirs
          cases h
          have hr := parseredirs_sound hredirs
          obtain ⟨vs, hvs, hder'⟩ := hr.derives
          have hmono := hgot'.suffix.trans (hl.suffix.trans hgot.suffix)
          refine ⟨hr.suffix.trans hmono, ⟨.lparen :: (ts ++ .rparen :: vs), ?_, ?_⟩, ?_⟩
          · rw [hlex, eq_of_lead (u := .lparen) (by decide) rfl hlead, ← hrest, hts, hlex', eq_of_lead (u := .rparen) (by decide) rfl hlead',
              ← hrest', hvs]
            simp
          · rw [Cmd.map_redirs]
            exact .block hder hder'
          · rw [Cmd.words_redirs]
            exact (hl.words.mono hgot.suffix).append (hr.words.mono hmono)
      · cases h
  · cases h

end

/-- **What the parser returns has been derived.** -/
theorem sound (fuel : Nat) : Sound fuel := by
  induction fuel with
  | zero =>
      refine ⟨fun h => ?_, fun h => ?_, fun h => ?_, fun h => ?_⟩
      · rw [parseline] at h
        cases h
      · rw [parsepipe] at h
        cases h
      · rw [parseexec] at h
        cases h
      · rw [parseblock] at h
        cases h
  | succ fuel ih => exact ⟨ih.line_succ, ih.pipe_succ, ih.exec_succ, ih.block_succ⟩

end Xv6.Sh

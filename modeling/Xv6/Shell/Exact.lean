import Xv6.Shell.Grammar

/-! # The parser accepts exactly the grammar

The other direction: on a line that derives, the parser returns the command of the derivation; what
follows a part of the line tells each function where to stop. With a bound in proportion to the
number of tokens the parser does not stop for lack of fuel. Together: `parsecmd` returns the command
of the derivation if there is one, and otherwise the shell is in its `panic`. -/

namespace Xv6.Sh

/-! ## What derives is returned -/

/-- What follows starts with one of the symbols, or nothing follows. -/
def Follows (toks : List UInt8) (rest : List Tok) : Prop := ∀ t ∈ rest.head?, t.lead ∈ toks

/-- A function stops for lack of fuel, or returns a value as told at a place before `rest`. -/
def Returns {α : Type} (r : Except Stop (α × Str)) (Q : α → Prop) (rest : List Tok) : Prop :=
  r = .error .fuel ∨ ∃ x s, r = .ok (x, s) ∧ Q x ∧ lex s = rest

variable {toks toks' : List UInt8} {rest : List Tok} {ts : List Tok} {rs : List (Redir Str)}
  {s : Str}

theorem peeks_of_follows (h : Follows toks rest) (hno : toks.all (! toks'.contains ·) = true) :
    peeks toks' rest = false := by
  cases rest with
  | nil => rfl
  | cons t ts =>
      have ht := List.all_eq_true.mp hno _ (h t rfl)
      rw [Bool.not_eq_eq_eq_not, Bool.not_true] at ht
      exact ht

theorem Redirs.complete (h : Redirs ts rs) (fuel : Nat) (hlex : lex s = ts ++ rest)
    (hrest : peeks [60, 62] rest = false) :
    Returns (parseredirs fuel s) (fun x => x.map (Redir.map Span.text) = rs) rest := by
  induction h generalizing fuel s with
  | nil =>
      cases fuel with
      | zero => exact .inl rfl
      | succ fuel =>
          refine .inr ⟨[], skip s, ?_, rfl, (lex_skip s).trans hlex⟩
          simp only [parseredirs]
          rw [peek_eq s (by decide), if_neg]
          rw [hlex]
          exact Bool.eq_false_iff.mp hrest
  | @cons t w mode fd ts rs ht h ih =>
      cases fuel with
      | zero => exact .inl rfl
      | succ fuel =>
          obtain ⟨hgot, hone⟩ := gettoken_skip hlex
          obtain ⟨hgot', htwo⟩ := gettoken_cons hone
          have hlead : [(60 : UInt8), 62].contains t.lead = true := lead_of_redirOf ht
          obtain ⟨mode', fd', ht', hnew⟩ := redirOf_of_lead hlead
          obtain ⟨rfl, rfl⟩ : mode = mode' ∧ fd = fd' := by
            rw [ht] at ht'
            simpa using ht'
          have hpeek : peek s [60, 62] = (true, skip s) := by
            rw [peek_eq s (by decide), hlex]
            exact congrArg (·, skip s) hlead
          have hfile : (gettoken (gettoken (skip s)).2.2).1 = 97 := hgot'.code
          unfold Returns
          simp only [parseredirs, hpeek, if_true, hfile, ne_eq, not_true, if_false, hgot.code, hnew]
          rcases ih fuel htwo with hfuel | ⟨x, s', hok, hx, hs'⟩
          · rw [hfuel]
            exact .inl rfl
          · rw [hok]
            refine .inr ⟨_, s', rfl, ?_, hs'⟩
            rw [List.singleton_append, List.map_cons, hx]
            unfold Redir.map
            rw [(hgot'.word w rfl).text]

theorem Follows.mono (h : Follows toks rest) (hsub : ∀ c ∈ toks, c ∈ toks') : Follows toks' rest :=
  fun t ht => hsub _ (h t ht)

theorem Follows.of_all (h : Follows toks rest) (hsub : toks.all (toks'.contains ·) = true) :
    Follows toks' rest :=
  h.mono fun c hc => List.contains_iff_mem.mp (List.all_eq_true.mp hsub c hc)

theorem follows_redirs {us : List Tok} (h : Redirs us rs) {toks : List UInt8}
    (hrest : Follows toks rest) :
    Follows (60 :: 62 :: toks) (us ++ rest) := by
  cases h with
  | nil => exact hrest.mono fun c hc => by simp [hc]
  | @cons t w mode fd ts rs ht h =>
      intro t' ht'
      obtain rfl : t = t' := Option.some.inj ht'
      have := lead_of_redirOf ht
      simp only [List.contains_cons, List.contains_nil, Bool.or_false, Bool.or_eq_true,
        beq_iff_eq] at this
      simp only [List.mem_cons]
      exact this.imp id .inl

theorem follows_words {ws : List Str} (h : Words ts ws rs) {toks : List UInt8}
    (hrest : Follows toks rest) :
    Follows (0 :: toks) (ts ++ rest) := by
  cases h with
  | nil => exact hrest.mono fun c hc => .tail _ hc
  | cons hr h =>
      intro t' ht'
      obtain rfl := Option.some.inj ht'
      exact List.mem_cons_self

theorem follows_amps {toks : List UInt8} (k : Nat) (hrest : Follows toks rest) :
    Follows (38 :: toks) (List.replicate k .amp ++ rest) := by
  cases k with
  | zero => exact hrest.mono fun c hc => .tail _ hc
  | succ k =>
      intro t' ht'
      obtain rfl := Option.some.inj ht'
      exact List.mem_cons_self

/-- A symbol that follows. -/
theorem follows_cons (t : Tok) (rest : List Tok) : Follows [t.lead] (t :: rest) := by
  intro t' ht'
  obtain rfl := Option.some.inj ht'
  exact List.mem_cons_self

/-- `peek` at the tokens of a place. -/
theorem peek_of_lex (toks : List UInt8) (hlex : lex s = ts)
    (h : toks.all (symbols.contains ·) = true) {b : Bool} (hb : peeks toks ts = b) :
    peek s toks = (b, skip s) := by
  rw [peek_eq s h, hlex, ← hb]
  rfl

theorem Words.complete {ws : List Str} {rs' : List (Redir Str)} (h : Words ts ws rs') (fuel : Nat)
    (argv : List Span) (rs : List (Redir Span)) (hlex : lex s = ts ++ rest)
    (hrest : Follows [124, 41, 38, 59] rest) (hcount : argv.length + ws.length < MAXARGS) :
    Returns (parseargs fuel argv rs s) (fun cmd => cmd.map Span.text =
      (Cmd.exec (argv.map Span.text ++ ws)).redirs (rs.map (Redir.map Span.text) ++ rs')) rest := by
  induction h generalizing fuel s argv rs with
  | nil =>
      cases fuel with
      | zero => exact .inl rfl
      | succ fuel =>
          have hmap : ((Cmd.exec argv).redirs rs).map Span.text =
              (Cmd.exec (argv.map Span.text ++ [])).redirs (rs.map (Redir.map Span.text) ++ []) := by
            rw [Cmd.map_redirs, List.append_nil, List.append_nil]
            rfl
          cases rest with
          | nil =>
              have hpeek := peek_of_lex [124, 41, 38, 59] (b := false) hlex (by decide) rfl
              have hnil : lex (skip s) = [] := (lex_skip s).trans hlex
              refine .inr ⟨_, [], ?_, hmap, lex_of_nil rfl⟩
              simp only [parseargs, hpeek, gettoken_nil hnil]
              rfl
          | cons t rest =>
              have hlead : [(124 : UInt8), 41, 38, 59].contains t.lead = true :=
                List.contains_iff_mem.mpr (hrest t rfl)
              have hpeek := peek_of_lex [124, 41, 38, 59] (b := true) hlex (by decide) hlead
              refine .inr ⟨_, skip s, ?_, hmap, (lex_skip s).trans hlex⟩
              simp only [parseargs, hpeek, if_true]
  | @cons w us ts ws rs₁ rs₂ hr h ih =>
      cases fuel with
      | zero => exact .inl rfl
      | succ fuel =>
          have hpeek := peek_of_lex [124, 41, 38, 59] (b := false) hlex (by decide) rfl
          obtain ⟨hgot, hafter⟩ := gettoken_skip hlex
          have hcode : (gettoken (skip s)).1 = 97 := hgot.code
          have hroom : ¬ MAXARGS ≤ argv.length + 1 := by
            rw [List.length_cons] at hcount
            omega
          have hnext : Follows [0, 124, 41, 38, 59] (ts ++ rest) := follows_words h hrest
          have hafter' : lex (gettoken (skip s)).2.2 = us ++ (ts ++ rest) := by
            rw [hafter]
            exact List.append_assoc ..
          unfold Returns
          simp only [parseargs, hpeek, hcode, ne_eq, not_true, if_false, hroom]
          rw [if_neg (by decide), if_neg (by decide)]
          rcases hr.complete fuel hafter' (peeks_of_follows hnext (by decide)) with
            hfuel | ⟨x, s', hok, hx, hs'⟩
          · rw [hfuel]
            exact .inl rfl
          · rw [hok]
            have hlen : (argv ++ [(gettoken (skip s)).2.1]).length + ws.length < MAXARGS := by
              rw [List.length_append, List.length_singleton]
              rw [List.length_cons] at hcount
              omega
            have hih := ih fuel (argv ++ [(gettoken (skip s)).2.1])
              (rs ++ x) hs' hlen
            rw [List.map_append, List.map_append, hx, List.map_cons, (hgot.word w rfl).text] at hih
            simpa [Returns] using hih

theorem parsebacks_complete {k : Nat} (fuel : Nat) (cmd : Cmd Span)
    (hlex : lex s = List.replicate k .amp ++ rest) (hrest : peeks [38] rest = false) :
    Returns (parsebacks fuel cmd s) (· = cmd.backs k) rest := by
  induction k generalizing fuel s cmd with
  | zero =>
      cases fuel with
      | zero => exact .inl rfl
      | succ fuel =>
          have hpeek := peek_of_lex _ (b := false) hlex (by decide) hrest
          refine .inr ⟨_, skip s, ?_, rfl, (lex_skip s).trans hlex⟩
          simp only [parsebacks, hpeek]
          rfl
  | succ k ih =>
      cases fuel with
      | zero => exact .inl rfl
      | succ fuel =>
          have hpeek := peek_of_lex [38] (b := true) hlex (by decide) rfl
          have hstep : parsebacks (fuel + 1) cmd s =
              parsebacks fuel (.back cmd) (gettoken (skip s)).2.2 := by
            simp only [parsebacks, hpeek, if_true]
          rw [hstep]
          exact ih fuel cmd.back (gettoken_skip hlex).2

/-- The function for a symbol of the grammar. -/
def parse : Symbol → Nat → Str → Except Stop (Cmd Span × Str)
  | .line => parseline
  | .pipe => parsepipe
  | .exec => parseexec

/-- What may follow. -/
def follow : Symbol → List UInt8
  | .line => [41]
  | .pipe => [41, 59, 38]
  | .exec => [41, 59, 38, 124]

/-- The rest of `parseline` after its pipeline and its `&`s. -/
theorem parseline_of_pipe {fuel k : Nat} {c : Cmd Str}
    (hpipe : Returns (parsepipe fuel s) (fun cmd => cmd.map Span.text = c)
      (List.replicate k .amp ++ rest)) (hrest : peeks [38] rest = false) :
    parseline (fuel + 1) s = .error .fuel ∨ ∃ cmd s', cmd.map Span.text = c.backs k ∧ lex s' = rest ∧
      parseline (fuel + 1) s =
        if (peek s' [59]).1 then
          match parseline fuel (gettoken (peek s' [59]).2).2.2 with
          | .error e => .error e
          | .ok (right, s) => .ok (.list cmd right, s)
        else .ok (cmd, (peek s' [59]).2) := by
  rw [parseline]
  rcases hpipe with hfuel | ⟨cmd, s₁, hok, hcmd, hs₁⟩
  · rw [hfuel]
    exact .inl rfl
  · rw [hok]
    simp only
    rcases parsebacks_complete fuel cmd hs₁ hrest with
      hfuel | ⟨cmd', s₂, hok', rfl, hs₂⟩
    · rw [hfuel]
      exact .inl rfl
    · rw [hok']
      exact .inr ⟨cmd.backs k, s₂, by rw [Cmd.map_backs, hcmd], hs₂, rfl⟩

/-- **What derives is returned**, if it is followed by what may follow. -/
theorem Derives.complete {n : Symbol} {c : Cmd Str} (h : Derives n ts c) (fuel : Nat)
    (hlex : lex s = ts ++ rest) (hrest : Follows (follow n) rest) :
    Returns (parse n fuel s) (fun cmd => cmd.map Span.text = c) rest := by
  induction h generalizing fuel s rest with
  | @line ts c h k ih =>
      cases fuel with
      | zero => exact .inl (by rw [parse, parseline])
      | succ fuel =>
          rw [List.append_assoc] at hlex
          have hnext : Follows [41, 59, 38] (List.replicate k .amp ++ rest) :=
            (follows_amps k hrest).of_all (by decide)
          rcases parseline_of_pipe (ih fuel hlex hnext) (peeks_of_follows hrest (by decide))
            with hfuel | ⟨cmd, s', hcmd, hs', hstep⟩
          · exact .inl hfuel
          · have hpeek := peek_of_lex [59] (b := false) hs' (by decide)
              (peeks_of_follows hrest (by decide))
            refine .inr ⟨cmd, skip s', ?_, hcmd, (lex_skip s').trans hs'⟩
            rw [parse, hstep, hpeek]
            rfl
  | @list ts us c d h k h' ih ih' =>
      cases fuel with
      | zero => exact .inl (by rw [parse, parseline])
      | succ fuel =>
          rw [List.append_assoc, List.append_assoc, List.cons_append] at hlex
          have hnext : Follows [41, 59, 38] (List.replicate k .amp ++ .semi :: (us ++ rest)) :=
            (follows_amps k (follows_cons .semi (us ++ rest))).of_all (by decide)
          rcases parseline_of_pipe (ih fuel hlex hnext) (by rfl)
            with hfuel | ⟨cmd, s', hcmd, hs', hstep⟩
          · exact .inl hfuel
          · have hpeek := peek_of_lex [59] (b := true) hs' (by decide) rfl
            unfold Returns
            rw [parse, hstep, hpeek, if_pos rfl]
            rcases ih' fuel (gettoken_skip hs').2 hrest with hfuel | ⟨r, s₃, hok, hr, hs₃⟩
            · rw [show parseline fuel _ = _ from hfuel]
              exact .inl rfl
            · rw [show parseline fuel _ = _ from hok]
              refine .inr ⟨_, s₃, rfl, ?_, hs₃⟩
              simp only [Cmd.map, hcmd, hr]
  | @exec ts c h ih =>
      cases fuel with
      | zero => exact .inl (by rw [parse, parsepipe])
      | succ fuel =>
          have hnext : Follows [41, 59, 38, 124] rest := hrest.of_all (by decide)
          unfold Returns
          rw [parse, parsepipe]
          rcases ih fuel hlex hnext with hfuel | ⟨cmd, s', hok, hcmd, hs'⟩
          · rw [show parseexec fuel _ = _ from hfuel]
            exact .inl rfl
          · rw [show parseexec fuel _ = _ from hok]
            have hpeek := peek_of_lex [124] (b := false) hs' (by decide)
              (peeks_of_follows hrest (by decide))
            refine .inr ⟨cmd, skip s', ?_, hcmd, (lex_skip s').trans hs'⟩
            simp only [hpeek]
            rfl
  | @pipe ts us c d h h' ih ih' =>
      cases fuel with
      | zero => exact .inl (by rw [parse, parsepipe])
      | succ fuel =>
          rw [List.append_assoc, List.cons_append] at hlex
          have hnext : Follows [41, 59, 38, 124] (.bar :: (us ++ rest)) :=
            (follows_cons .bar (us ++ rest)).of_all (by decide)
          unfold Returns
          rw [parse, parsepipe]
          rcases ih fuel hlex hnext with hfuel | ⟨cmd, s', hok, hcmd, hs'⟩
          · rw [show parseexec fuel _ = _ from hfuel]
            exact .inl rfl
          · rw [show parseexec fuel _ = _ from hok]
            have hpeek := peek_of_lex [124] (b := true) hs' (by decide) rfl
            simp only [hpeek, if_true]
            rcases ih' fuel (gettoken_skip hs').2 hrest with hfuel | ⟨r, s₃, hok', hr, hs₃⟩
            · rw [show parsepipe fuel _ = _ from hfuel]
              exact .inl rfl
            · rw [show parsepipe fuel _ = _ from hok']
              refine .inr ⟨_, s₃, rfl, ?_, hs₃⟩
              simp only [Cmd.map, hcmd, hr]
  | @block ts us c rs h hr ih =>
      cases fuel with
      | zero => exact .inl (by rw [parse, parseexec])
      | succ fuel =>
          rw [List.cons_append, List.append_assoc, List.cons_append] at hlex
          have hpeek := peek_of_lex [40] (b := true) hlex (by decide) rfl
          unfold Returns
          rw [parse, parseexec]
          simp only [hpeek, if_true]
          cases fuel with
          | zero => exact .inl (by rw [parseblock])
          | succ fuel =>
              have hlex' : lex (skip s) = _ := (lex_skip s).trans hlex
              have hpeek' := peek_of_lex [40] (b := true) hlex' (by decide) rfl
              have hinner : Follows [41] (.rparen :: (us ++ rest)) := follows_cons _ _
              rw [parseblock]
              simp only [hpeek', if_true]
              rcases ih fuel (gettoken_skip hlex').2 hinner with
                hfuel | ⟨cmd, s', hok, hcmd, hs'⟩
              · rw [show parseline fuel _ = _ from hfuel]
                exact .inl rfl
              · rw [show parseline fuel _ = _ from hok]
                have hclose := peek_of_lex [41] (b := true) hs' (by decide) rfl
                simp only [hclose, if_true]
                rcases hr.complete fuel (gettoken_skip hs').2
                  (peeks_of_follows hrest (by decide)) with hfuel | ⟨x, s₃, hok', hx, hs₃⟩
                · rw [hfuel]
                  exact .inl rfl
                · rw [hok']
                  refine .inr ⟨_, s₃, rfl, ?_, hs₃⟩
                  rw [Cmd.map_redirs, hcmd, hx]
  | @words us ts ws rs rs' hr h hmax =>
      cases fuel with
      | zero => exact .inl (by rw [parse, parseexec])
      | succ fuel =>
          rw [List.append_assoc] at hlex
          have hnext : Follows [0, 41, 59, 38, 124] (ts ++ rest) := follows_words h hrest
          have hpeek := peek_of_lex [40] (b := false) hlex (by decide)
            (peeks_of_follows (follows_redirs hr hnext) (by decide))
          have hlex' : lex (skip s) = _ := (lex_skip s).trans hlex
          unfold Returns
          rw [parse, parseexec]
          simp only [hpeek]
          rw [if_neg (by decide)]
          rcases hr.complete fuel hlex' (peeks_of_follows hnext (by decide)) with
            hfuel | ⟨x, s', hok, hx, hs'⟩
          · rw [hfuel]
            exact .inl rfl
          · rw [hok]
            have hcount : ([] : List Span).length + ws.length < MAXARGS := by
              unfold MAXARGS
              rw [List.length_nil]
              omega
            have hargs := h.complete fuel [] x hs'
              (hrest.of_all (by decide)) hcount
            rw [hx] at hargs
            exact hargs

/-! ## The bound -/

theorem parseredirs_fuel {fuel : Nat} (h : (lex s).length < fuel) :
    parseredirs fuel s ≠ .error .fuel := by
  induction fuel generalizing s with
  | zero => exact absurd h (Nat.not_lt_zero _)
  | succ fuel ih =>
      simp only [parseredirs]
      rw [peek_eq s (by decide)]
      split
      · rename_i hpeek
        obtain ⟨t, ts, hlex, -⟩ := peeks_eq_true hpeek
        obtain ⟨-, hrest⟩ := gettoken_skip hlex
        split
        · rintro ⟨⟩
        · have hlen : (lex (gettoken (gettoken (skip s)).2.2).2.2).length ≤ ts.length := by
            cases hts : ts with
            | nil =>
                rw [hts] at hrest
                rw [gettoken_nil hrest, lex_of_nil rfl]
            | cons t' us =>
                rw [hts] at hrest
                rw [(gettoken_cons hrest).2]
                exact Nat.le_succ _
          rw [hlex, List.length_cons] at h
          have hih := ih (s := (gettoken (gettoken (skip s)).2.2).2.2) (by omega)
          split
          · rename_i e he
            rintro ⟨⟩
            exact hih he
          · rintro ⟨⟩
      · rintro ⟨⟩

theorem parseargs_fuel {fuel : Nat} {argv : List Span} {rs : List (Redir Span)}
    (h : (lex s).length < fuel) : parseargs fuel argv rs s ≠ .error .fuel := by
  induction fuel generalizing s argv rs with
  | zero => exact absurd h (Nat.not_lt_zero _)
  | succ fuel ih =>
      simp only [parseargs]
      rw [peek_eq s (by decide)]
      split
      · rintro ⟨⟩
      · cases hlex : lex s with
        | nil =>
            have hnil : lex (skip s) = [] := (lex_skip s).trans hlex
            rw [show gettoken (_, skip s).2 = _ from gettoken_nil hnil, if_pos rfl]
            rintro ⟨⟩
        | cons t ts =>
            obtain ⟨hgot, hrest⟩ := gettoken_skip hlex
            rw [hlex, List.length_cons] at h
            have hlen : (lex (gettoken (skip s)).2.2).length < fuel := by
              rw [hrest]
              omega
            split
            · rintro ⟨⟩
            · split
              · rintro ⟨⟩
              · split
                · rintro ⟨⟩
                · split
                  · rename_i e he
                    rintro ⟨⟩
                    exact parseredirs_fuel hlen he
                  · rename_i rs' s' hok
                    obtain ⟨us, hus, -⟩ := (parseredirs_sound hok).derives
                    have hadd := congrArg List.length hus
                    rw [List.length_append] at hadd
                    change (lex (gettoken (skip s)).2.2).length = _ at hadd
                    exact ih (by omega)

theorem parsebacks_fuel {fuel : Nat} {cmd : Cmd Span} (h : (lex s).length < fuel) :
    parsebacks fuel cmd s ≠ .error .fuel := by
  induction fuel generalizing s cmd with
  | zero => exact absurd h (Nat.not_lt_zero _)
  | succ fuel ih =>
      simp only [parsebacks]
      rw [peek_eq s (by decide)]
      split
      · rename_i hpeek
        obtain ⟨t, ts, hlex, -⟩ := peeks_eq_true hpeek
        refine ih ?_
        rw [hlex, List.length_cons] at h
        show (lex (gettoken (skip s)).2.2).length < fuel
        rw [(gettoken_skip hlex).2]
        omega
      · rintro ⟨⟩

/-- The four functions do not run out of fuel, with a given bound. -/
structure Enough (fuel : Nat) : Prop where
  line : ∀ {s}, 4 * (lex s).length + 3 < fuel → parseline fuel s ≠ .error .fuel
  pipe : ∀ {s}, 4 * (lex s).length + 2 < fuel → parsepipe fuel s ≠ .error .fuel
  exec : ∀ {s}, 4 * (lex s).length + 1 < fuel → parseexec fuel s ≠ .error .fuel
  block : ∀ {s}, 4 * (lex s).length < fuel → parseblock fuel s ≠ .error .fuel

theorem ParsedAt.length_le {n : Symbol} {s s' : Str} {cmd : Cmd Span} (h : ParsedAt n s cmd s') :
    (lex s').length ≤ (lex s).length := by
  obtain ⟨ts, hts, -⟩ := h.derives
  rw [hts, List.length_append]
  exact Nat.le_add_left _ _

/-- A token is consumed. -/
theorem length_gettoken (toks : List UInt8) (h : peeks toks (lex s) = true) :
    (lex (gettoken (skip s)).2.2).length + 1 = (lex s).length := by
  obtain ⟨t, ts, hlex, -⟩ := peeks_eq_true h
  rw [(gettoken_skip hlex).2, hlex]
  rfl

section

variable {fuel : Nat} {s : Str}

theorem Enough.line_succ (ih : Enough fuel) (h : 4 * (lex s).length + 3 < fuel + 1) :
    parseline (fuel + 1) s ≠ .error .fuel := by
  rw [parseline]
  split
  · rename_i e he
    rintro ⟨⟩
    exact ih.pipe (by omega) he
  · rename_i c₁ s₁ hpipe
    have hlen := ((sound fuel).pipe hpipe).length_le
    split
    · rename_i e he
      rintro ⟨⟩
      exact parsebacks_fuel (by omega) he
    · rename_i c₂ s₂ hbacks
      obtain ⟨-, k, -, hk⟩ := parsebacks_sound hbacks
      have hadd := congrArg List.length hk
      rw [List.length_append] at hadd
      simp only
      rw [peek_eq s₂ (by decide)]
      split
      · rename_i hpeek
        have hone := length_gettoken [59] hpeek
        split
        · rename_i e he
          rintro ⟨⟩
          exact ih.line (by show 4 * (lex (gettoken (skip s₂)).2.2).length + 3 < fuel; omega) he
        · rintro ⟨⟩
      · rintro ⟨⟩

theorem Enough.pipe_succ (ih : Enough fuel) (h : 4 * (lex s).length + 2 < fuel + 1) :
    parsepipe (fuel + 1) s ≠ .error .fuel := by
  rw [parsepipe]
  split
  · rename_i e he
    rintro ⟨⟩
    exact ih.exec (by omega) he
  · rename_i c₁ s₁ hexec
    have hlen := ((sound fuel).exec hexec).length_le
    simp only
    rw [peek_eq s₁ (by decide)]
    split
    · rename_i hpeek
      have hone := length_gettoken [124] hpeek
      split
      · rename_i e he
        rintro ⟨⟩
        exact ih.pipe (by show 4 * (lex (gettoken (skip s₁)).2.2).length + 2 < fuel; omega) he
      · rintro ⟨⟩
    · rintro ⟨⟩

theorem Enough.exec_succ (ih : Enough fuel) (h : 4 * (lex s).length + 1 < fuel + 1) :
    parseexec (fuel + 1) s ≠ .error .fuel := by
  have hskip : (lex (skip s)).length = (lex s).length := by rw [lex_skip]
  rw [parseexec, peek_eq s (by decide)]
  split
  · exact ih.block (by show 4 * (lex (skip s)).length < fuel; omega)
  · split
    · rename_i e he
      rintro ⟨⟩
      exact parseredirs_fuel (by show (lex (skip s)).length < fuel; omega) he
    · rename_i rs s' hredirs
      obtain ⟨us, hus, -⟩ := (parseredirs_sound hredirs).derives
      have hadd := congrArg List.length hus
      rw [List.length_append] at hadd
      change (lex (skip s)).length = _ at hadd
      exact parseargs_fuel (by omega)

theorem Enough.block_succ (ih : Enough fuel) (h : 4 * (lex s).length < fuel + 1) :
    parseblock (fuel + 1) s ≠ .error .fuel := by
  rw [parseblock, peek_eq s (by decide)]
  split
  · rename_i hpeek
    have hone := length_gettoken [40] hpeek
    split
    · rename_i e he
      rintro ⟨⟩
      exact ih.line (by show 4 * (lex (gettoken (skip s)).2.2).length + 3 < fuel; omega) he
    · rename_i c₁ s₁ hline
      have hlen := ((sound fuel).line hline).length_le
      change (lex s₁).length ≤ (lex (gettoken (skip s)).2.2).length at hlen
      simp only
      rw [peek_eq s₁ (by decide)]
      split
      · rename_i hpeek'
        have hone' := length_gettoken [41] hpeek'
        split
        · rename_i e he
          rintro ⟨⟩
          exact parseredirs_fuel
            (by show (lex (gettoken (skip s₁)).2.2).length < fuel; omega) he
        · rintro ⟨⟩
      · rintro ⟨⟩
  · rintro ⟨⟩

end

/-- **The parser ends.** -/
theorem enough (fuel : Nat) : Enough fuel := by
  induction fuel with
  | zero => exact ⟨fun h => by omega, fun h => by omega, fun h => by omega, fun h => by omega⟩
  | succ fuel ih => exact ⟨ih.line_succ, ih.pipe_succ, ih.exec_succ, ih.block_succ⟩

end Xv6.Sh

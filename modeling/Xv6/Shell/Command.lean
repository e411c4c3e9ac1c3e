import Xv6.Shell.Exact

/-! # The commands that the shell reads

After `nulterminate` the words of a command are strings in memory: each NUL is written behind a
word, where no word has a character. With this `parsecmd` is exact for the grammar, down to the
strings. -/

namespace Xv6.Sh

/-! ## The words in memory -/

/-- A word ends at a place of the line. -/
def EndsAt (n : Nat) (ws : List Span) (i : Nat) : Prop := ∃ w ∈ ws, place n w.eq = i

theorem endsAt_append {n i : Nat} {ws ws' : List Span} :
    EndsAt n (ws ++ ws') i ↔ EndsAt n ws i ∨ EndsAt n ws' i := by
  simp only [EndsAt, List.mem_append, or_and_right, exists_or]

/-- Memory that differs in NULs at some places. -/
def NulAt (ends : Nat → Prop) (buf buf' : Str) : Prop :=
  ∀ i c, buf[i]? = some c → (ends i → buf'[i]? = some 0) ∧ (¬ ends i → buf'[i]? = some c)

theorem NulAt.trans {ends ends' : Nat → Prop} {buf buf' buf'' : Str} (h : NulAt ends buf buf')
    (h' : NulAt ends' buf' buf'') : NulAt (fun i => ends i ∨ ends' i) buf buf'' := by
  intro i c hc
  obtain ⟨hyes, hno⟩ := h i c hc
  by_cases hend : ends i
  · have hzero := h' i 0 (hyes hend)
    refine ⟨fun _ => ?_, fun hnot => absurd (.inl hend) hnot⟩
    by_cases hend' : ends' i
    · exact hzero.1 hend'
    · exact hzero.2 hend'
  · have hsame := h' i c (hno hend)
    refine ⟨fun hor => hsame.1 (hor.resolve_left hend), fun hnot => hsame.2 fun hend' => ?_⟩
    exact hnot (.inr hend')

theorem nulAt_set (buf : Str) (k : Nat) : NulAt (k = ·) buf (buf.set k 0) := by
  intro i c hc
  have hlt : i < buf.length := (List.getElem?_eq_some_iff.mp hc).1
  refine ⟨fun hk => ?_, fun hk => ?_⟩
  · subst hk
    rw [List.getElem?_set_self hlt]
  · rw [List.getElem?_set_ne hk]
    exact hc

theorem NulAt.congr {ends ends' : Nat → Prop} {buf buf' : Str} (h : NulAt ends buf buf')
    (heq : ∀ i, ends i ↔ ends' i) : NulAt ends' buf buf' := by
  have : ends = ends' := funext fun i => propext (heq i)
  exact this ▸ h

theorem nulAt_foldl (n : Nat) (ws : List Span) (buf : Str) :
    NulAt (EndsAt n ws) buf (ws.foldl (fun buf w => buf.set (place n w.eq) 0) buf) := by
  induction ws generalizing buf with
  | nil =>
      refine fun i c hc => ⟨fun h => ?_, fun _ => hc⟩
      obtain ⟨w, hw, -⟩ := h
      cases hw
  | cons w ws ih =>
      refine ((nulAt_set buf _).trans (ih _)).congr fun i => ?_
      simp only [EndsAt, List.mem_cons, exists_eq_or_imp]

/-- **`nulterminate`** writes a NUL where a word ends, and nothing else. -/
theorem nulAt_nulterminate (n : Nat) (cmd : Cmd Span) (buf : Str) :
    NulAt (EndsAt n cmd.words) buf (nulterminate n cmd buf) := by
  induction cmd generalizing buf with
  | exec argv => exact nulAt_foldl n argv buf
  | redir c file mode fd ih =>
      refine ((ih buf).trans (nulAt_set _ _)).congr fun i => ?_
      rw [Cmd.words, endsAt_append]
      simp only [EndsAt, List.mem_singleton, exists_eq_left]
  | pipe l r ihl ihr =>
      refine ((ihl buf).trans (ihr _)).congr fun i => ?_
      rw [Cmd.words, endsAt_append]
  | list l r ihl ihr =>
      refine ((ihl buf).trans (ihr _)).congr fun i => ?_
      rw [Cmd.words, endsAt_append]
  | back c ih => exact ih buf

/-- A string in memory is known from its characters and its NUL. -/
theorem cstring_eq {n : Nat} {buf q text : Str} (hnz : ∀ c ∈ text, c ≠ 0)
    (htext : ∀ i c, text[i]? = some c → buf[place n q + i]? = some c)
    (hnul : buf[place n q + text.length]? = some 0) : cstring n buf q = text := by
  have hdrop : buf.drop (place n q) = text ++ 0 :: buf.drop (place n q + text.length + 1) := by
    refine List.ext_getElem? fun i => ?_
    rw [List.getElem?_drop]
    rcases lt_trichotomy i text.length with hlt | rfl | hgt
    · rw [List.getElem?_append_left hlt]
      have hi : text[i]? = some text[i] := List.getElem?_eq_getElem hlt
      rw [hi]
      exact htext i _ hi
    · rw [List.getElem?_append_right le_rfl, Nat.sub_self]
      exact hnul
    · rw [List.getElem?_append_right hgt.le]
      obtain ⟨k, rfl⟩ := Nat.exists_eq_add_of_lt hgt
      rw [show text.length + k + 1 - text.length = k + 1 by omega, List.getElem?_cons_succ,
        List.getElem?_drop]
      congr 1
      omega
  unfold cstring
  rw [hdrop, List.takeWhile_append_of_pos]
  · simp
  · intro c hc
    simpa using hnz c hc

/-- Where a word ends there is no character of a word. -/
theorem not_isWord_of_endsAt {s : Str} {ws : List Span} (h : GoodWords s ws) {i : Nat}
    (hend : EndsAt s.length ws i) {c : UInt8} (hc : s[i]? = some c) : isWord c = false := by
  obtain ⟨w, hw, rfl⟩ := hend
  obtain ⟨text, hgood⟩ := h w hw
  have hsuffix : w.eq <:+ s := by
    refine List.IsSuffix.trans ?_ hgood.suffix
    rw [hgood.split]
    exact List.suffix_append _ _
  obtain ⟨pre, rfl⟩ := hsuffix
  refine hgood.longest c ?_
  have hplace : place (pre ++ w.eq).length w.eq = pre.length := by
    unfold place
    rw [List.length_append]
    omega
  rw [hplace, List.getElem?_append_right le_rfl, Nat.sub_self] at hc
  rw [List.head?_eq_getElem?]
  exact hc

/-- The places of a word in the line. -/
theorem Span.Good.places {s text : Str} {w : Span} (h : w.Good s text) :
    place s.length w.eq = place s.length w.q + text.length ∧ place s.length w.eq ≤ s.length ∧
      ∀ i c, text[i]? = some c → s[place s.length w.q + i]? = some c := by
  obtain ⟨pre, rfl⟩ := h.suffix
  have hq : place (pre ++ w.q).length w.q = pre.length := by
    unfold place
    rw [List.length_append]
    omega
  have hlen : w.q.length = text.length + w.eq.length := by
    rw [h.split, List.length_append]
  refine ⟨?_, Nat.sub_le .., fun i c hc => ?_⟩
  · unfold place
    rw [List.length_append]
    omega
  · have hlt : i < text.length := (List.getElem?_eq_some_iff.mp hc).1
    rw [hq, List.getElem?_append_right (Nat.le_add_right ..), Nat.add_sub_cancel_left, h.split,
      List.getElem?_append_left hlt]
    exact hc

/-- **The strings of the words are their texts.** -/
theorem cstring_nulterminate {s : Str} {cmd : Cmd Span} (h0 : (0 : UInt8) ∉ s)
    (h : GoodWords s cmd.words) {w : Span} (hw : w ∈ cmd.words) :
    cstring s.length (nulterminate s.length cmd (s ++ [0])) w.q = w.text := by
  obtain ⟨text, hgood⟩ := h w hw
  have hnul := nulAt_nulterminate s.length cmd (s ++ [0])
  obtain ⟨heq, hle, hplace⟩ := hgood.places
  rw [hgood.text]
  refine cstring_eq (fun c hc hzero => ?_) (fun i c hc => ?_) ?_
  · obtain ⟨i, hi⟩ := List.getElem?_of_mem hc
    exact h0 (hzero ▸ List.mem_of_getElem? (hplace i c hi))
  · have hsi := hplace i c hc
    have hbuf : (s ++ [0])[place s.length w.q + i]? = some c := by
      rw [List.getElem?_append_left (List.getElem?_eq_some_iff.mp hsi).1]
      exact hsi
    refine (hnul _ c hbuf).2 fun hend => ?_
    have hword := hgood.word c (List.mem_of_getElem? hc)
    rw [not_isWord_of_endsAt h hend hsi] at hword
    cases hword
  · rw [← heq]
    have hlt : place s.length w.eq < (s ++ [0]).length := by
      rw [List.length_append, List.length_singleton]
      omega
    exact (hnul _ _ (List.getElem?_eq_getElem hlt)).1 ⟨w, hw, rfl⟩

/-- No word of the line has a character where a word ends. -/
theorem not_inside_of_endsAt {s : Str} {ws : List Span} (h : GoodWords s ws) {i : Nat}
    (hend : EndsAt s.length ws i) {w : Span} (hw : w ∈ ws) :
    ¬ (place s.length w.q ≤ i ∧ i < place s.length w.eq) := by
  rintro ⟨hle, hlt⟩
  obtain ⟨text, hgood⟩ := h w hw
  obtain ⟨heq, -, hplace⟩ := hgood.places
  obtain ⟨k, rfl⟩ := Nat.exists_eq_add_of_le hle
  have hk : text[k]? = some text[k] := List.getElem?_eq_getElem (by omega)
  have hword := hgood.word _ (List.mem_of_getElem? hk)
  rw [not_isWord_of_endsAt h hend (hplace k _ hk)] at hword
  cases hword

/-! ## The command of a line -/

theorem Cmd.map_congr {α β : Type} {f g : α → β} {c : Cmd α} (h : ∀ w ∈ c.words, f w = g w) :
    c.map f = c.map g := by
  induction c with
  | exec argv => exact congrArg Cmd.exec (List.map_congr_left h)
  | redir c file mode fd ih =>
      have hc := ih fun w hw => h w (List.mem_append_left _ hw)
      have hfile := h file (List.mem_append_right _ List.mem_cons_self)
      rw [Cmd.map, Cmd.map, hc, hfile]
  | pipe l r ihl ihr =>
      rw [Cmd.map, Cmd.map, ihl fun w hw => h w (List.mem_append_left _ hw),
        ihr fun w hw => h w (List.mem_append_right _ hw)]
  | list l r ihl ihr =>
      rw [Cmd.map, Cmd.map, ihl fun w hw => h w (List.mem_append_left _ hw),
        ihr fun w hw => h w (List.mem_append_right _ hw)]
  | back c ih => rw [Cmd.map, Cmd.map, ih h]

/-- The strings of a command that was parsed. -/
theorem strings_eq {fuel : Nat} {s t : Str} {cmd : Cmd Span} (h0 : (0 : UInt8) ∉ s)
    (h : parseline fuel s = .ok (cmd, t)) :
    Cmd.strings s.length (cmd, nulterminate s.length cmd (s ++ [0])) = cmd.map Span.text :=
  Cmd.map_congr fun _ hw => cstring_nulterminate h0 ((sound fuel).line h).words hw

theorem peek_nil (t : Str) : (peek t []).2 = skip t := by
  unfold peek
  cases h : skip t <;> rfl

/-- `parsecmd` returns if `parseline` has come to the end of the line. -/
theorem parsecmd_of_parseline {fuel : Nat} {s t : Str} {cmd : Cmd Span}
    (h : parseline fuel s = .ok (cmd, t)) :
    parsecmd fuel s = if lex t ≠ [] then .error (.leftovers (skip t))
      else .ok (cmd, nulterminate s.length cmd (s ++ [0])) := by
  have hend : skip t ≠ [] ↔ lex t ≠ [] := by
    rw [not_iff_not]
    exact ⟨lex_of_nil, skip_eq_nil⟩
  unfold parsecmd
  rw [h]
  simp only [peek_nil, hend]

/-- A line has no more tokens than characters. -/
theorem length_lex_le (s : Str) : (lex s).length ≤ s.length := by
  induction hn : s.length using Nat.strong_induction_on generalizing s with
  | _ n ih =>
      subst hn
      cases hskip : skip s with
      | nil =>
          rw [lex_of_nil hskip]
          exact Nat.zero_le _
      | cons c t =>
          have hlt := length_skip_lt hskip
          have htail : t.tail.length ≤ t.length := by simp
          have hword := length_skipWord_le t
          rw [lex_of_cons hskip]
          split
          · have := ih t.tail.length (by omega) t.tail rfl
            rw [List.length_cons]
            omega
          · split
            · have := ih t.length hlt t rfl
              rw [List.length_cons]
              omega
            · have := ih (skipWord t).length (by omega) (skipWord t) rfl
              rw [List.length_cons]
              omega

/-- **The parser accepts exactly its grammar.** With enough fuel, for every line without a NUL,
`parsecmd` returns a command exactly if the tokens of the line derive from `line`, and the command
with its strings in memory is the one of the derivation; if there is no derivation, the shell is in
its `panic`. -/
theorem parsecmd_exact {s : Str} (h0 : (0 : UInt8) ∉ s) {fuel : Nat}
    (hfuel : 4 * s.length + 3 < fuel) :
    (∀ c, Derives .line (lex s) c ↔
      ∃ r, parsecmd fuel s = .ok r ∧ Cmd.strings s.length r = c) ∧
      ((∀ c, ¬ Derives .line (lex s) c) → ∃ e, parsecmd fuel s = .error e ∧ e.Panics) := by
  have hlen := length_lex_le s
  have hline := (enough fuel).line (s := s) (by omega)
  refine ⟨fun c => ⟨fun hder => ?_, ?_⟩, fun hnone => ?_⟩
  · have hlex : lex s = lex s ++ [] := (List.append_nil _).symm
    rcases hder.complete fuel hlex (fun t ht => (nomatch ht)) with
      hout | ⟨cmd, t, hok, hcmd, ht⟩
    · exact absurd hout hline
    · refine ⟨(cmd, nulterminate s.length cmd (s ++ [0])), ?_, ?_⟩
      · rw [parsecmd_of_parseline hok, if_neg (not_not.mpr ht)]
      · rw [strings_eq h0 hok]
        exact hcmd
  · rintro ⟨r, hr, rfl⟩
    cases hp : parseline fuel s with
    | error e =>
        unfold parsecmd at hr
        rw [hp] at hr
        cases hr
    | ok p =>
        obtain ⟨cmd, t⟩ := p
        rw [parsecmd_of_parseline hp] at hr
        split at hr
        · cases hr
        · rename_i hend
          cases hr
          obtain ⟨ts, hts, hder⟩ := ((sound fuel).line hp).derives
          rw [not_not.mp hend, List.append_nil] at hts
          rw [strings_eq h0 hp, hts]
          exact hder
  · cases hp : parseline fuel s with
    | error e =>
        refine ⟨e, ?_, ?_⟩
        · unfold parsecmd
          rw [hp]
        · cases e with
          | fuel => exact absurd hp hline
          | _ => trivial
    | ok p =>
        obtain ⟨cmd, t⟩ := p
        rw [parsecmd_of_parseline hp]
        by_cases hend : lex t = []
        · obtain ⟨ts, hts, hder⟩ := ((sound fuel).line hp).derives
          rw [hend, List.append_nil] at hts
          exact absurd (hts ▸ hder) (hnone _)
        · rw [if_pos hend]
          exact ⟨_, rfl, trivial⟩

/-- Every `EXEC` node has room for the null pointer behind its arguments. -/
def Cmd.Terminated {α : Type} : Cmd α → Prop
  | .exec argv => argv.length < MAXARGS
  | .redir c _ _ _ => c.Terminated
  | .pipe l r => l.Terminated ∧ r.Terminated
  | .list l r => l.Terminated ∧ r.Terminated
  | .back c => c.Terminated

theorem Cmd.terminated_map {α β : Type} {f : α → β} {c : Cmd α} :
    (c.map f).Terminated ↔ c.Terminated := by
  induction c with
  | exec argv => simp only [Cmd.map, Cmd.Terminated, List.length_map]
  | redir c file mode fd ih => exact ih
  | pipe l r ihl ihr => exact and_congr ihl ihr
  | list l r ihl ihr => exact and_congr ihl ihr
  | back c ih => exact ih

theorem Cmd.Terminated.redirs {α : Type} {c : Cmd α} (h : c.Terminated) (rs : List (Redir α)) :
    (c.redirs rs).Terminated := by
  induction rs generalizing c with
  | nil => exact h
  | cons r rs ih => exact ih h

theorem Cmd.Terminated.backs {α : Type} {c : Cmd α} (h : c.Terminated) (k : Nat) :
    (c.backs k).Terminated := by
  induction k generalizing c with
  | zero => exact h
  | succ k ih => exact ih h

theorem Derives.terminated {n : Symbol} {ts : List Tok} {c : Cmd Str} (h : Derives n ts c) :
    c.Terminated := by
  induction h with
  | line h k ih => exact ih.backs k
  | list h k h' ih ih' => exact ⟨ih.backs k, ih'⟩
  | exec h ih => exact ih
  | pipe h h' ih ih' => exact ⟨ih, ih'⟩
  | block h hr ih => exact ih.redirs _
  | words hr h hmax => exact Cmd.Terminated.redirs (c := .exec _) (Nat.lt_succ_of_le hmax) _

/-- **`nulterminate` yields the words of the line**: for every line that `parsecmd` accepts, the
strings in memory of all the nodes at once are the words that were parsed for them, each a longest
run of characters of words, and they are those of a derivation of the line; `argv` has room for its
null pointer; and the memory differs from the line in the terminators only, none of which lies
inside a word or behind the line's own. -/
theorem nulterminate_exact {s : Str} (h0 : (0 : UInt8) ∉ s) {fuel : Nat} {cmd : Cmd Span} {buf : Str}
    (h : parsecmd fuel s = .ok (cmd, buf)) :
    Cmd.strings s.length (cmd, buf) = cmd.map Span.text ∧
      (∀ w ∈ cmd.words, w.Good s w.text) ∧
      Derives .line (lex s) (cmd.map Span.text) ∧ cmd.Terminated ∧
      NulAt (EndsAt s.length cmd.words) (s ++ [0]) buf ∧
      ∀ i, EndsAt s.length cmd.words i → i ≤ s.length ∧
        ∀ w ∈ cmd.words, ¬ (place s.length w.q ≤ i ∧ i < place s.length w.eq) := by
  cases hp : parseline fuel s with
  | error e =>
      unfold parsecmd at h
      rw [hp] at h
      cases h
  | ok p =>
      obtain ⟨cmd', t⟩ := p
      rw [parsecmd_of_parseline hp] at h
      split at h
      · cases h
      · rename_i hend
        cases h
        have hparsed := (sound fuel).line hp
        obtain ⟨ts, hts, hder⟩ := hparsed.derives
        rw [not_not.mp hend, List.append_nil] at hts
        refine ⟨strings_eq h0 hp, fun w hw => ?_, hts ▸ hder, Cmd.terminated_map.mp hder.terminated,
          nulAt_nulterminate _ _ _, fun i hi => ⟨?_, fun w hw => ?_⟩⟩
        · obtain ⟨text, hgood⟩ := hparsed.words w hw
          rwa [hgood.text]
        · obtain ⟨w, -, rfl⟩ := hi
          exact Nat.sub_le ..
        · exact not_inside_of_endsAt hparsed.words hi hw

/-- The line `(a;b)>c&`. -/
def sample : Str := [40, 97, 59, 98, 41, 62, 99, 38]

/-- The command of a line: a redirected block in the background. -/
theorem parsecmd_exact_sample :
    Derives .line (lex sample)
      (.back (.redir (.list (.exec [[97]]) (.exec [[98]])) [99] (O_WRONLY ||| O_CREATE) 1)) :=
  ((parsecmd_exact (s := sample) (by decide) (by decide : 4 * 8 + 3 < 40)).1 _).mpr
    ⟨_, rfl, by decide +kernel⟩

/-- The words of the same line in memory. -/
theorem nulterminate_exact_sample :
    ∃ cmd buf, parsecmd 40 sample = .ok (cmd, buf) ∧
      Cmd.strings 8 (cmd, buf) = cmd.map Span.text := by
  refine ⟨_, _, rfl, ?_⟩
  exact (nulterminate_exact (by decide) (rfl : parsecmd 40 sample = .ok (_, _))).1

end Xv6.Sh

import Xv6.Shell.Lex

/-! # The parser of the shell

`parsecmd` of `sh.c` with the functions it is made of. Commands keep the places of their words in
the line, as the pairs of pointers that they have in the source, until `nulterminate` writes a NUL
after each of them. `malloc` succeeds. Loops and recursive calls are given a bound; where it is
reached the model stops with `fuel`. -/

namespace Xv6.Sh

/-- `MAXARGS`. -/
def MAXARGS : Nat := 10

/-- `O_RDONLY`. -/
def O_RDONLY : Nat := 0x000

/-- `O_WRONLY`. -/
def O_WRONLY : Nat := 0x001

/-- `O_CREATE`. -/
def O_CREATE : Nat := 0x200

/-- **A command**, with words of any kind: their places, or their texts. -/
inductive Cmd (α : Type)
  /-- `EXEC`. -/
  | exec (argv : List α)
  /-- `REDIR`. -/
  | redir (cmd : Cmd α) (file : α) (mode fd : Nat)
  /-- `PIPE`. -/
  | pipe (left right : Cmd α)
  /-- `LIST`. -/
  | list (left right : Cmd α)
  /-- `BACK`. -/
  | back (cmd : Cmd α)
  deriving DecidableEq

/-- The part of a `redircmd` that is not the command. -/
structure Redir (α : Type) where
  file : α
  mode : Nat
  fd : Nat

namespace Cmd

variable {α β : Type}

/-- Redirections around a command, the first one innermost. -/
def redirs (c : Cmd α) : List (Redir α) → Cmd α
  | [] => c
  | r :: rs => (Cmd.redir c r.file r.mode r.fd).redirs rs

/-- A command run in the background, `n` times. -/
def backs (c : Cmd α) : Nat → Cmd α
  | 0 => c
  | n + 1 => (Cmd.back c).backs n

/-- Change the words. -/
def map (f : α → β) : Cmd α → Cmd β
  | exec argv => exec (argv.map f)
  | redir c file mode fd => redir (c.map f) (f file) mode fd
  | pipe l r => pipe (l.map f) (r.map f)
  | list l r => list (l.map f) (r.map f)
  | back c => back (c.map f)

/-- The words of a command. -/
def words : Cmd α → List α
  | exec argv => argv
  | redir c file _ _ => c.words ++ [file]
  | pipe l r => l.words ++ r.words
  | list l r => l.words ++ r.words
  | back c => c.words

end Cmd

/-- How the parser can stop without a command. -/
inductive Stop
  /-- `panic(msg)`. -/
  | panic (msg : String)
  /-- `printf(2, "leftovers: %s\n", s)` and `panic("syntax")`. -/
  | leftovers (s : Str)
  /-- The bound of the model is reached. -/
  | fuel

/-- The shell is in its `panic`. -/
def Stop.Panics : Stop → Prop
  | .fuel => False
  | _ => True

/-- The redirection that `parseredirs` makes of a token and a file. -/
def redirection (tok : UInt8) (w : Span) : List (Redir Span) :=
  if tok = 60 then [⟨w, O_RDONLY, 0⟩]
  else if tok = 62 then [⟨w, O_WRONLY ||| O_CREATE, 1⟩]
  else if tok = 43 then [⟨w, O_WRONLY ||| O_CREATE, 1⟩]
  else []

/-- **`parseredirs`**: the redirections to put around the command. -/
def parseredirs : Nat → Str → Except Stop (List (Redir Span) × Str)
  | 0, _ => .error .fuel
  | fuel + 1, s =>
      let p := peek s [60, 62]
      if p.1 then
        let tok := gettoken p.2
        let file := gettoken tok.2.2
        if file.1 ≠ 97 then .error (.panic "missing file for redirection")
        else
          match parseredirs fuel file.2.2 with
          | .error e => .error e
          | .ok (rs, s) => .ok (redirection tok.1 file.2.1 ++ rs, s)
      else .ok ([], p.2)

/-- The loop of `parseexec`, after the words `argv` and the redirections `rs`. -/
def parseargs : Nat → List Span → List (Redir Span) → Str → Except Stop (Cmd Span × Str)
  | 0, _, _, _ => .error .fuel
  | fuel + 1, argv, rs, s =>
      let p := peek s [124, 41, 38, 59]
      if p.1 then .ok ((Cmd.exec argv).redirs rs, p.2)
      else
        let tok := gettoken p.2
        if tok.1 = 0 then .ok ((Cmd.exec argv).redirs rs, tok.2.2)
        else if tok.1 ≠ 97 then .error (.panic "syntax")
        else if MAXARGS ≤ argv.length + 1 then .error (.panic "too many args")
        else
          match parseredirs fuel tok.2.2 with
          | .error e => .error e
          | .ok (rs', s) => parseargs fuel (argv ++ [tok.2.1]) (rs ++ rs') s

/-- The loop of `parseline` that makes commands run in the background. -/
def parsebacks : Nat → Cmd Span → Str → Except Stop (Cmd Span × Str)
  | 0, _, _ => .error .fuel
  | fuel + 1, cmd, s =>
      let p := peek s [38]
      if p.1 then parsebacks fuel (.back cmd) (gettoken p.2).2.2
      else .ok (cmd, p.2)

mutual

/-- **`parseline`.** -/
def parseline : Nat → Str → Except Stop (Cmd Span × Str)
  | 0, _ => .error .fuel
  | fuel + 1, s =>
      match parsepipe fuel s with
      | .error e => .error e
      | .ok (cmd, s) =>
          match parsebacks fuel cmd s with
          | .error e => .error e
          | .ok (cmd, s) =>
              let p := peek s [59]
              if p.1 then
                match parseline fuel (gettoken p.2).2.2 with
                | .error e => .error e
                | .ok (right, s) => .ok (.list cmd right, s)
              else .ok (cmd, p.2)

/-- **`parsepipe`.** -/
def parsepipe : Nat → Str → Except Stop (Cmd Span × Str)
  | 0, _ => .error .fuel
  | fuel + 1, s =>
      match parseexec fuel s with
      | .error e => .error e
      | .ok (cmd, s) =>
          let p := peek s [124]
          if p.1 then
            match parsepipe fuel (gettoken p.2).2.2 with
            | .error e => .error e
            | .ok (right, s) => .ok (.pipe cmd right, s)
          else .ok (cmd, p.2)

/-- **`parseexec`.** -/
def parseexec : Nat → Str → Except Stop (Cmd Span × Str)
  | 0, _ => .error .fuel
  | fuel + 1, s =>
      let p := peek s [40]
      if p.1 then parseblock fuel p.2
      else
        match parseredirs fuel p.2 with
        | .error e => .error e
        | .ok (rs, s) => parseargs fuel [] rs s

/-- **`parseblock`.** -/
def parseblock : Nat → Str → Except Stop (Cmd Span × Str)
  | 0, _ => .error .fuel
  | fuel + 1, s =>
      let p := peek s [40]
      if p.1 then
        match parseline fuel (gettoken p.2).2.2 with
        | .error e => .error e
        | .ok (cmd, s) =>
            let p := peek s [41]
            if p.1 then
              match parseredirs fuel (gettoken p.2).2.2 with
              | .error e => .error e
              | .ok (rs, s) => .ok (cmd.redirs rs, s)
            else .error (.panic "syntax - missing )")
      else .error (.panic "parseblock")

end

/-! ## The end of the words -/

/-- The place of a pointer in a line of `n` characters. -/
def place (n : Nat) (s : Str) : Nat := n - s.length

/-- **`nulterminate`** in the memory `buf` of a line of `n` characters. -/
def nulterminate (n : Nat) : Cmd Span → Str → Str
  | .exec argv, buf => argv.foldl (fun buf w => buf.set (place n w.eq) 0) buf
  | .redir c file _ _, buf => (nulterminate n c buf).set (place n file.eq) 0
  | .pipe l r, buf => nulterminate n r (nulterminate n l buf)
  | .list l r, buf => nulterminate n r (nulterminate n l buf)
  | .back c, buf => nulterminate n c buf

/-- The string at a pointer, up to its NUL. -/
def cstring (n : Nat) (buf : Str) (q : Str) : Str := (buf.drop (place n q)).takeWhile (· ≠ 0)

/-- **`parsecmd`**: the command, and the memory of the line. -/
def parsecmd (fuel : Nat) (s : Str) : Except Stop (Cmd Span × Str) :=
  match parseline fuel s with
  | .error e => .error e
  | .ok (cmd, t) =>
      let p := peek t []
      if p.2 ≠ [] then .error (.leftovers p.2)
      else .ok (cmd, nulterminate s.length cmd (s ++ [0]))

/-- The command with the strings that its words have in memory. -/
def Cmd.strings (n : Nat) (r : Cmd Span × Str) : Cmd Str := r.1.map fun w => cstring n r.2 w.q

end Xv6.Sh

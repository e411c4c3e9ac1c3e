import Xv6.Lib.Exec
import Xv6.Console.Input

/-! # The line discipline of the console

`consoleintr` and `consoleread` as a transition system: characters arrive, any number of processes
read, sleep on `&input.r` and are killed. Each round of a loop under `input.lock` is one step, and
the lock is held from round to round; a character is taken by `consoleintr` together with the
`wakeup` that it causes, since no process runs while the interrupt handler holds the lock.

Two histories are recorded beside the state: the characters committed and the characters copied to
readers. -/

namespace Xv6.Console

open Lib

/-- What is shown on the console by `consoleintr`. -/
inductive Echo
  /-- `consputc(c)`. -/
  | char (c : UInt8)
  /-- `consputc(BACKSPACE)`. -/
  | backspace
  /-- `procdump()`. -/
  | procdump
  deriving DecidableEq

/-- Who holds `input.lock`. -/
inductive Holder
  | consoleintr
  | proc (i : Nat)
  deriving DecidableEq

/-- Where a process is in `consoleread`, with the number of bytes asked for, the number of bytes
left and the bytes stored at `dst`. -/
inductive Call
  /-- In no call. -/
  | none
  /-- Before `acquire`, also in `sleep`. -/
  | wait (target n : Int) (dst : List UInt8)
  /-- In the loop, with the lock. -/
  | loop (target n : Int) (dst : List UInt8)

/-- **The console** and the processes that read from it. -/
structure ConsoleState where
  input : Input
  screen : List Echo
  /-- The holder of `input.lock`. -/
  lock : Option Holder
  call : Nat → Call
  /-- The processes `SLEEPING` on `&input.r`. -/
  asleep : Nat → Bool
  killed : Nat → Bool
  /-- All characters committed so far. -/
  committed : List UInt8
  /-- All characters copied to readers so far, in the order of consumption. -/
  copied : List UInt8

/-- What happens next. -/
inductive ConsoleEvent
  /-- An interrupt: `consoleintr` takes the lock. -/
  | intr
  /-- In `consoleintr`, `getc()` returns a character. -/
  | getc (c : UInt8)
  /-- In `consoleintr`, `getc()` returns a negative number. -/
  | idle
  /-- A process calls `consoleread(ip, dst, n)`. -/
  | read (i : Nat) (n : Int)
  /-- A process in `consoleread` goes on. -/
  | act (i : Nat)
  /-- A process is killed. -/
  | kill (i : Nat)
  /-- A killed process leaves its call through `exit` in the timer interrupt. -/
  | exit (i : Nat)

/-- How a round of the loop of `consoleread` ends. -/
inductive Next
  /-- With another round, for `n` bytes. -/
  | again (n : Int)
  /-- With `sleep(&input.r, &input.lock)`. -/
  | sleep
  /-- With the return of a value. -/
  | ret (v : Int)
  deriving DecidableEq

/-- What a round of the loop of `consoleread` does. -/
structure Round where
  input : Input
  /-- The bytes stored at `dst`. -/
  copied : List UInt8
  next : Next

/-- **A round of the loop of `consoleread`**, or the end of the loop. -/
def Input.readRound (x : Input) (killed : Bool) (target n : Int) : Round :=
  if n ≤ 0 then ⟨x, [], .ret (target - n)⟩
  else if x.r = x.w then
    if killed then ⟨x, [], .ret (-1)⟩ else ⟨x, [], .sleep⟩
  else if x.get x.r = C 'D' then
    -- save ^D for next time, so that the caller gets a 0-byte result
    ⟨if n < target then x.advance.retreat else x.advance, [], .ret (target - n)⟩
  else if x.get x.r = newline then ⟨x.advance, [x.get x.r], .ret (target - (n - 1))⟩
  else ⟨x.advance, [x.get x.r], .again (n - 1)⟩

namespace ConsoleState

/-- Change where a process is. -/
def setCall (s : ConsoleState) (i : Nat) (c : Call) : ConsoleState :=
  { s with call := Function.update s.call i c }

/-- `consputc` and `procdump`. -/
def echo (s : ConsoleState) (o : Echo) : ConsoleState := { s with screen := s.screen ++ [o] }

/-- `input.e--; consputc(BACKSPACE)`. -/
def erase (s : ConsoleState) : ConsoleState := { s with input := s.input.erase }.echo .backspace

/-- The loop of `^U`, of at most `n` rounds. -/
def killLine : Nat → ConsoleState → ConsoleState
  | 0, s => s
  | n + 1, s =>
      if s.input.e ≠ s.input.w ∧ s.input.get (s.input.e - 1#32) ≠ newline then killLine n s.erase
      else s

/-- `input.w = input.e; wakeup(&input.r)`. -/
def commit (s : ConsoleState) : ConsoleState :=
  { s with
    input := s.input.commit
    committed := s.committed ++ s.input.edit
    asleep := fun _ => false }

/-- Store a character, show it, and commit at the end of a line or of the buffer. -/
def enter (s : ConsoleState) (c : UInt8) : ConsoleState :=
  let t := { s with input := s.input.store c }.echo (.char c)
  if c = newline ∨ c = C 'D' ∨ t.input.e = t.input.r + BitVec.ofNat 32 INPUT_BUF then t.commit
  else t

/-- **A round of the loop of `consoleintr`.** -/
def getc (s : ConsoleState) (c : UInt8) : ConsoleState :=
  if c = C 'P' then s.echo .procdump
  -- every round brings `e` nearer to `w`
  else if c = C 'U' then s.killLine (s.input.e - s.input.w).toNat
  else if c = C 'H' ∨ c = 0x7f then if s.input.e ≠ s.input.w then s.erase else s
  else if c ≠ 0 ∧ (s.input.e - s.input.r).toNat < INPUT_BUF then
    s.enter (if c = 13 then newline else c)
  else s

/-- The next step of a process in `consoleread`. -/
def act (s : ConsoleState) (i : Nat) : Option ConsoleState :=
  match s.call i with
  | .none => none
  | .wait target n dst =>
      if s.lock = none ∧ s.asleep i = false then
        some { s.setCall i (.loop target n dst) with lock := some (.proc i) }
      else none
  | .loop target n dst =>
      let d := s.input.readRound (s.killed i) target n
      let t := { s with input := d.input, copied := s.copied ++ d.copied }
      match d.next with
      | .again m => some (t.setCall i (.loop target m (dst ++ d.copied)))
      | .sleep =>
          some { t.setCall i (.wait target n (dst ++ d.copied)) with
            asleep := Function.update s.asleep i true, lock := none }
      | .ret _ => some { t.setCall i .none with lock := none }

/-- The value that the call of a process returns in its next step, if it returns then, with the
number of bytes asked for and the bytes at `dst`. -/
def result (s : ConsoleState) (i : Nat) : Option (Int × Int × List UInt8) :=
  match s.call i with
  | .loop target n dst =>
      let d := s.input.readRound (s.killed i) target n
      match d.next with
      | .ret v => some (v, target, dst ++ d.copied)
      | _ => none
  | _ => none

/-- **The steps of the system.** -/
def step (s : ConsoleState) : ConsoleEvent → Option ConsoleState
  | .intr => if s.lock = none then some { s with lock := some .consoleintr } else none
  | .getc c => if s.lock = some .consoleintr then some (s.getc c) else none
  | .idle => if s.lock = some .consoleintr then some { s with lock := none } else none
  | .read i n =>
      match s.call i with
      | .none => some (s.setCall i (.wait n n []))
      | _ => none
  | .act i => s.act i
  | .kill i =>
      some { s with
        killed := Function.update s.killed i true
        asleep := Function.update s.asleep i false }
  | .exit i =>
      match s.call i with
      | .wait _ _ _ =>
          if s.killed i = true ∧ s.asleep i = false then some (s.setCall i .none) else none
      | _ => none

/-- The console after `consoleinit`; processes may have been killed before. -/
def new (buf : Nat → UInt8) (killed : Nat → Bool) : ConsoleState where
  input := ⟨buf, 0#32, 0#32, 0#32⟩
  screen := []
  lock := none
  call _ := .none
  asleep _ := false
  killed := killed
  committed := []
  copied := []

end ConsoleState

/-! ## Typing -/

/-- **The line discipline as it is meant**: a queue of characters ready to be read, and a line that
is being edited. -/
structure Line where
  ready : List UInt8
  edit : List UInt8

/-- What a key does to the line. -/
def Line.key (l : Line) (c : UInt8) : Line :=
  if c = C 'P' ∨ c = 0 then l
  else if c = C 'U' then ⟨l.ready, []⟩
  else if c = C 'H' ∨ c = 0x7f then ⟨l.ready, l.edit.dropLast⟩
  else if l.ready.length + l.edit.length < INPUT_BUF then
    let c := if c = 13 then newline else c
    let edit := l.edit ++ [c]
    if c = newline ∨ c = C 'D' ∨ l.ready.length + edit.length = INPUT_BUF then
      ⟨l.ready ++ edit, []⟩
    else ⟨l.ready, edit⟩
  else l

/-- The line in the ring. -/
def Input.line (x : Input) : Line := ⟨x.ready, x.edit⟩

/-- The ring is in order, and no line ends in the part that can be edited. -/
structure Editable (x : Input) : Prop where
  valid : x.Valid
  clean : newline ∉ x.edit

namespace ConsoleState

/-- A key has been typed that erases, or nothing: only what can be edited is different. -/
structure Erased (s t : ConsoleState) : Prop where
  editable : Editable t.input
  ready : t.input.ready = s.input.ready
  r : t.input.r = s.input.r
  w : t.input.w = s.input.w
  lock : t.lock = s.lock
  call : t.call = s.call
  asleep : t.asleep = s.asleep
  committed : t.committed = s.committed
  copied : t.copied = s.copied

variable {s : ConsoleState}

theorem Erased.refl (h : Editable s.input) : Erased s s :=
  ⟨h, rfl, rfl, rfl, rfl, rfl, rfl, rfl, rfl⟩

theorem Erased.trans {s t u : ConsoleState} (h : Erased s t) (h' : Erased t u) : Erased s u :=
  ⟨h'.editable, h'.ready.trans h.ready, h'.r.trans h.r, h'.w.trans h.w, h'.lock.trans h.lock,
    h'.call.trans h.call, h'.asleep.trans h.asleep, h'.committed.trans h.committed,
    h'.copied.trans h.copied⟩

theorem erased_erase (h : Editable s.input) (hne : s.input.e ≠ s.input.w) : Erased s s.erase := by
  refine ⟨⟨h.valid.erase hne, ?_⟩, rfl, rfl, rfl, rfl, rfl, rfl, rfl, rfl⟩
  show newline ∉ s.input.erase.edit
  rw [Input.edit_erase hne]
  exact fun hmem => h.clean (List.dropLast_subset _ hmem)

/-- **The loop of `^U`** erases the line, and nothing before it. -/
theorem erased_killLine {n : Nat} (h : Editable s.input) (hn : s.input.edit.length ≤ n) :
    Erased s (s.killLine n) ∧ (s.killLine n).input.edit = [] := by
  induction n generalizing s with
  | zero => exact ⟨.refl h, List.length_eq_zero_iff.mp (Nat.le_zero.mp hn)⟩
  | succ n ih =>
      unfold killLine
      split
      · rename_i hmore
        have herase := erased_erase h hmore.1
        have hlen : s.erase.input.edit.length ≤ n := by
          show s.input.erase.edit.length ≤ n
          rw [Input.edit_erase hmore.1, List.length_dropLast]
          omega
        obtain ⟨hrest, hnil⟩ := ih herase.editable hlen
        exact ⟨herase.trans hrest, hnil⟩
      · rename_i hstop
        refine ⟨.refl h, Input.edit_eq_nil.mpr ?_⟩
        by_contra hne
        have hne' : s.input.e ≠ s.input.w := fun heq => hne heq.symm
        have hlast : s.input.get (s.input.e - 1#32) = newline := by
          by_contra hother
          exact hstop ⟨hne', hother⟩
        exact h.clean (hlast ▸ Input.get_mem_edit hne')

/-- **What a key can do**: more may be ready and committed, at the end; who was asleep is woken up
then. -/
structure Keyed (s t : ConsoleState) : Prop where
  editable : Editable t.input
  r : t.input.r = s.input.r
  call : t.call = s.call
  copied : t.copied = s.copied
  fresh : ∃ new, t.input.ready = s.input.ready ++ new ∧ t.committed = s.committed ++ new
  asleep : (t.asleep = s.asleep ∧ t.input.w = s.input.w) ∨ ∀ i, t.asleep i = false

theorem Erased.keyed {s t : ConsoleState} (h : Erased s t) : Keyed s t :=
  ⟨h.editable, h.r, h.call, h.copied,
    ⟨[], by rw [h.ready, List.append_nil], by rw [h.committed, List.append_nil]⟩,
    .inl ⟨h.asleep, h.w⟩⟩

/-- **A character is entered**: it stands at the end of the line, and the line is committed if it
ends there. -/
theorem enter_spec (h : Editable s.input) (hroom : (s.input.e - s.input.r).toNat < INPUT_BUF)
    (c : UInt8) :
    Keyed s (s.enter c) ∧ (s.enter c).input.line =
      if c = newline ∨ c = C 'D' ∨
          s.input.ready.length + (s.input.edit ++ [c]).length = INPUT_BUF then
        ⟨s.input.ready ++ (s.input.edit ++ [c]), []⟩
      else ⟨s.input.ready, s.input.edit ++ [c]⟩ := by
  have hvalid := h.valid.store hroom c
  have hready := Input.ready_store h.valid hroom c
  have hedit := Input.edit_store h.valid hroom c
  have hfull : (s.input.store c).e = (s.input.store c).r + BitVec.ofNat 32 INPUT_BUF ↔
      s.input.ready.length + (s.input.edit ++ [c]).length = INPUT_BUF := by
    rw [Input.full_iff, ← Input.length_add hvalid, hready, hedit]
  unfold enter
  simp only [echo, hfull]
  split
  · have hcommit : (s.input.store c).commit.ready = s.input.ready ++ (s.input.edit ++ [c]) := by
      rw [Input.ready_commit hvalid, hready, hedit]
    refine ⟨⟨⟨hvalid.commit, ?_⟩, rfl, rfl, rfl, ⟨s.input.edit ++ [c], hcommit, ?_⟩,
      .inr fun _ => rfl⟩, ?_⟩
    · show newline ∉ (s.input.store c).commit.edit
      rw [Input.edit_commit]
      exact List.not_mem_nil
    · show s.committed ++ (s.input.store c).edit = _
      rw [hedit]
    · show (⟨(s.input.store c).commit.ready, (s.input.store c).commit.edit⟩ : Line) = _
      rw [hcommit, Input.edit_commit]
  · rename_i hopen
    refine ⟨⟨⟨hvalid, ?_⟩, rfl, rfl, rfl, ⟨[], ?_, ?_⟩, .inl ⟨rfl, rfl⟩⟩, ?_⟩
    · show newline ∉ (s.input.store c).edit
      rw [hedit, List.mem_append, List.mem_singleton]
      rintro (hmem | heq)
      · exact h.clean hmem
      · exact hopen (.inl heq.symm)
    · rw [List.append_nil]
      exact hready
    · rw [List.append_nil]
    · show (⟨(s.input.store c).ready, (s.input.store c).edit⟩ : Line) = _
      rw [hready, hedit]

/-- **`consoleintr` is the line discipline**: the ring shows what each key does to the line. -/
theorem getc_spec (h : Editable s.input) (c : UInt8) :
    Keyed s (s.getc c) ∧ (s.getc c).input.line = s.input.line.key c := by
  have hsame : Keyed s s := (Erased.refl h).keyed
  unfold getc Line.key
  by_cases hP : c = C 'P'
  · rw [if_pos hP, if_pos (.inl hP)]
    exact ⟨⟨hsame.editable, rfl, rfl, rfl, hsame.fresh, hsame.asleep⟩, rfl⟩
  by_cases hU : c = C 'U'
  · have h0 : ¬ (c = C 'P' ∨ c = 0) := by
      subst hU
      decide
    rw [if_neg hP, if_pos hU, if_neg h0, if_pos hU]
    obtain ⟨hkill, hnil⟩ := erased_killLine h (Input.length_edit s.input).le
    refine ⟨hkill.keyed, ?_⟩
    show (⟨_, _⟩ : Line) = _
    rw [hkill.ready, hnil]
    rfl
  by_cases hH : c = C 'H' ∨ c = 0x7f
  · have h0 : ¬ (c = C 'P' ∨ c = 0) := by
      rcases hH with rfl | rfl <;> decide
    rw [if_neg hP, if_neg hU, if_pos hH, if_neg h0, if_neg hU, if_pos hH]
    split
    · rename_i hne
      refine ⟨(erased_erase h hne).keyed, ?_⟩
      show (⟨s.input.ready, s.input.erase.edit⟩ : Line) = _
      rw [Input.edit_erase hne]
      rfl
    · rename_i heq
      refine ⟨hsame, ?_⟩
      have hnil : s.input.edit = [] := Input.edit_eq_nil.mpr (not_not.mp heq).symm
      show (⟨s.input.ready, s.input.edit⟩ : Line) = ⟨s.input.ready, s.input.edit.dropLast⟩
      rw [hnil]
      rfl
  by_cases h0 : c = 0
  · rw [if_neg hP, if_neg hU, if_neg hH, if_neg (fun hne => hne.1 h0), if_pos (.inr h0)]
    exact ⟨hsame, rfl⟩
  · rw [if_neg hP, if_neg hU, if_neg hH, if_neg (not_or.mpr ⟨hP, h0⟩), if_neg hU, if_neg hH]
    have hroom : s.input.line.ready.length + s.input.line.edit.length =
        (s.input.e - s.input.r).toNat := Input.length_add h.valid
    rw [hroom]
    by_cases hlt : (s.input.e - s.input.r).toNat < INPUT_BUF
    · rw [if_pos ⟨h0, hlt⟩, if_pos hlt]
      exact enter_spec h hlt _
    · rw [if_neg (fun hne => hlt hne.2), if_neg hlt]
      exact ⟨hsame, rfl⟩

end ConsoleState

/-! ## Reading -/

/-- **The rounds of `consoleread`**, by what they find. -/
inductive Rounds (x : Input) (killed : Bool) (target n : Int) : Round → Prop
  | done (hn : n ≤ 0) : Rounds x killed target n ⟨x, [], .ret (target - n)⟩
  | killed (hn : 0 < n) (hempty : x.r = x.w) (hkilled : killed = true) :
      Rounds x killed target n ⟨x, [], .ret (-1)⟩
  | sleep (hn : 0 < n) (hempty : x.r = x.w) : Rounds x killed target n ⟨x, [], .sleep⟩
  | saved (hn : 0 < n) (hne : x.r ≠ x.w) (heof : x.get x.r = C 'D') (hsome : n < target) :
      Rounds x killed target n ⟨x, [], .ret (target - n)⟩
  | eof (hn : 0 < n) (hne : x.r ≠ x.w) (heof : x.get x.r = C 'D') :
      Rounds x killed target n ⟨x.advance, [], .ret (target - n)⟩
  | line (hn : 0 < n) (hne : x.r ≠ x.w) (hline : x.get x.r = newline) :
      Rounds x killed target n ⟨x.advance, [x.get x.r], .ret (target - (n - 1))⟩
  | copy (hn : 0 < n) (hne : x.r ≠ x.w) (hother : x.get x.r ≠ C 'D') :
      Rounds x killed target n ⟨x.advance, [x.get x.r], .again (n - 1)⟩

theorem rounds_readRound (x : Input) (killed : Bool) (target n : Int) :
    Rounds x killed target n (x.readRound killed target n) := by
  unfold Input.readRound
  split
  · rename_i hn
    exact .done hn
  · rename_i hn
    have hpos : 0 < n := not_le.mp hn
    split
    · rename_i hempty
      split
      · rename_i hkilled
        exact .killed hpos hempty hkilled
      · exact .sleep hpos hempty
    · rename_i hne
      split
      · rename_i heof
        split
        · rename_i hsome
          rw [Input.retreat_advance]
          exact .saved hpos hne heof hsome
        · exact .eof hpos hne heof
      · rename_i hother
        split
        · rename_i hline
          exact .line hpos hne hline
        · exact .copy hpos hne hother

/-- **What a round takes from the ring**: characters that were ready, of which all but `^D` are
copied. -/
structure Taken (x : Input) (d : Round) (used : List UInt8) : Prop where
  valid : d.input.Valid
  edit : d.input.edit = x.edit
  ready : x.ready = used ++ d.input.ready
  copied : d.copied = used.filter (· ≠ C 'D')
  count : (d.input.r - x.r).toNat = used.length
  w : d.input.w = x.w
  /-- Nothing is taken from an empty ring. -/
  empty : x.r = x.w → used = []

theorem taken_nothing {x : Input} (h : x.Valid) (v : Next) : Taken x ⟨x, [], v⟩ [] :=
  ⟨h, rfl, rfl, rfl, by simp, rfl, fun _ => rfl⟩

theorem taken_advance {x : Input} (h : x.Valid) (hne : x.r ≠ x.w) {copied : List UInt8}
    (hcopied : copied = [x.get x.r].filter (· ≠ C 'D')) (v : Next) :
    Taken x ⟨x.advance, copied, v⟩ [x.get x.r] := by
  refine ⟨h.advance hne, rfl, Input.ready_advance hne, hcopied, ?_, rfl,
    fun hempty => absurd hempty hne⟩
  have hone : x.r + 1#32 - x.r = 1#32 := by grind
  show (x.r + 1#32 - x.r).toNat = 1
  rw [hone]
  rfl

theorem Rounds.taken {x : Input} {killed : Bool} {target n : Int} {d : Round}
    (hd : Rounds x killed target n d) (h : x.Valid) : ∃ used, Taken x d used := by
  cases hd with
  | done | killed | sleep | saved => exact ⟨[], taken_nothing h _⟩
  | eof _ hne heof => exact ⟨_, taken_advance h hne (by rw [heof]; decide) _⟩
  | line _ hne hline => exact ⟨_, taken_advance h hne (by rw [hline]; decide) _⟩
  | copy _ hne hother => exact ⟨_, taken_advance h hne (by simp [hother]) _⟩

/-! ## Whole runs -/

/-- The bytes at `dst` are those that have been counted. -/
def Call.Counted : Call → Prop
  | .none => True
  | .wait target n dst | .loop target n dst => (dst.length : Int) = target - n

/-- **The invariant of the console.** -/
structure ConsoleInv (s : ConsoleState) : Prop where
  editable : Editable s.input
  /-- What was committed has been consumed or is ready. -/
  stream : ∃ consumed, s.committed = consumed ++ s.input.ready ∧
    s.copied = consumed.filter (· ≠ C 'D')
  awake : ∀ i, s.asleep i = true → s.input.r = s.input.w
  counted : ∀ i, (s.call i).Counted

theorem consoleInv_new (buf : Nat → UInt8) (killed : Nat → Bool) :
    ConsoleInv (ConsoleState.new buf killed) := by
  have hready : (ConsoleState.new buf killed).input.ready = [] := Input.ready_eq_nil.mpr rfl
  have hedit : (ConsoleState.new buf killed).input.edit = [] := Input.edit_eq_nil.mpr rfl
  refine ⟨⟨⟨le_rfl, ?_⟩, ?_⟩, ⟨[], ?_, rfl⟩, fun i h => (nomatch h), fun i => trivial⟩
  · show (0#32 - 0#32 : BitVec 32).toNat ≤ INPUT_BUF
    decide
  · rw [hedit]
    exact List.not_mem_nil
  · rw [hready]
    rfl

/-- **What was ready stays ready** until it is consumed: a step may consume from its front and add
to its end. -/
def Kept (s t : ConsoleState) : Prop :=
  s.input.ready.drop (t.input.r - s.input.r).toNat <+: t.input.ready

variable {s t : ConsoleState}

theorem kept_of_eq (h : t.input = s.input) : Kept s t := by
  unfold Kept
  rw [h, BitVec.sub_self]
  exact List.prefix_rfl

theorem counted_setCall {s : ConsoleState} (h : ConsoleInv s) {i : Nat} {c : Call} (hc : c.Counted)
    (j : Nat) : (Function.update s.call i c j).Counted := by
  by_cases hij : j = i
  · rw [hij, Function.update_self]
    exact hc
  · rw [Function.update_of_ne hij]
    exact h.counted j

/-- A key keeps the invariant. -/
theorem ConsoleInv.getc {s : ConsoleState} (h : ConsoleInv s) (c : UInt8) :
    ConsoleInv (s.getc c) ∧ Kept s (s.getc c) := by
  have hkey := (ConsoleState.getc_spec h.editable c).1
  obtain ⟨new, hready, hcommitted⟩ := hkey.fresh
  obtain ⟨consumed, hstream, hcopied⟩ := h.stream
  refine ⟨⟨hkey.editable, ⟨consumed, ?_, hkey.copied.trans hcopied⟩, fun i hi => ?_,
    fun i => by rw [hkey.call]; exact h.counted i⟩, ?_⟩
  · rw [hcommitted, hstream, hready, List.append_assoc]
  · rcases hkey.asleep with ⟨hasleep, hw⟩ | hall
    · rw [hkey.r, hw]
      exact h.awake i (hasleep ▸ hi)
    · rw [hall i] at hi
      cases hi
  · unfold Kept
    rw [hkey.r, BitVec.sub_self, hready]
    exact List.prefix_append _ _

/-- The ring and the stream after a round. -/
theorem ConsoleInv.round (h : ConsoleInv s) {d : Round} {used : List UInt8}
    (hd : Taken s.input d used) (hinput : t.input = d.input)
    (hcopied : t.copied = s.copied ++ d.copied) (hcommitted : t.committed = s.committed)
    (hawake : ∀ i, t.asleep i = true → s.asleep i = true ∨ s.input.r = s.input.w)
    (hcounted : ∀ i, (t.call i).Counted) : ConsoleInv t ∧ Kept s t := by
  obtain ⟨consumed, hstream, hfilter⟩ := h.stream
  refine ⟨⟨⟨hinput ▸ hd.valid, ?_⟩, ⟨consumed ++ used, ?_, ?_⟩, fun i hi => ?_, hcounted⟩, ?_⟩
  · rw [hinput, hd.edit]
    exact h.editable.clean
  · rw [hcommitted, hstream, hd.ready, hinput, List.append_assoc]
  · rw [hcopied, hfilter, hd.copied, List.filter_append]
  · -- a round with a sleeper found the ring empty and took nothing
    have hempty : s.input.r = s.input.w := (hawake i hi).elim (h.awake i) id
    have hcount := hd.count
    rw [hd.empty hempty] at hcount
    have hr : d.input.r = s.input.r := by
      have hzero : d.input.r - s.input.r = 0#32 := BitVec.eq_of_toNat_eq hcount
      grind
    rw [hinput, hr, hd.w]
    exact hempty
  · unfold Kept
    rw [hinput, hd.count, hd.ready, List.drop_left]

/-- **A process in `consoleread` keeps the invariant.** -/
theorem ConsoleInv.act {i : Nat} (h : ConsoleInv s) (hact : s.act i = some t) :
    ConsoleInv t ∧ Kept s t := by
  have hcall := h.counted i
  unfold ConsoleState.act at hact
  split at hact
  · cases hact
  · rename_i target n dst heq
    rw [heq] at hcall
    split at hact
    · cases hact
      exact ⟨⟨h.editable, h.stream, h.awake, counted_setCall h hcall⟩, kept_of_eq rfl⟩
    · cases hact
  · rename_i target n dst heq
    rw [heq] at hcall
    have hround := rounds_readRound s.input (s.killed i) target n
    obtain ⟨used, hused⟩ := hround.taken h.editable.valid
    generalize s.input.readRound (s.killed i) target n = d at hact hround hused
    have hlen : (dst.length : Int) = target - n := hcall
    cases hround with
    | sleep hn hempty =>
        cases hact
        refine h.round hused rfl rfl rfl (fun j _ => .inr hempty) (counted_setCall h ?_)
        show ((dst ++ []).length : Int) = target - n
        rw [List.append_nil]
        exact hlen
    | copy hn hne hother =>
        cases hact
        refine h.round hused rfl rfl rfl (fun j hj => .inl hj) (counted_setCall h ?_)
        show ((dst ++ [_]).length : Int) = target - (n - 1)
        rw [List.length_append, List.length_singleton]
        omega
    | _ =>
        cases hact
        exact h.round hused rfl rfl rfl (fun j hj => .inl hj) (counted_setCall h trivial)

/-- **Every step keeps the invariant**, and what was ready. -/
theorem ConsoleInv.step {e : ConsoleEvent} (h : ConsoleInv s) (hstep : s.step e = some t) :
    ConsoleInv t ∧ Kept s t := by
  cases e with
  | intr =>
      simp only [ConsoleState.step] at hstep
      split at hstep
      · cases hstep
        exact ⟨⟨h.editable, h.stream, h.awake, h.counted⟩, kept_of_eq rfl⟩
      · cases hstep
  | getc c =>
      simp only [ConsoleState.step] at hstep
      split at hstep
      · cases hstep
        exact h.getc c
      · cases hstep
  | idle =>
      simp only [ConsoleState.step] at hstep
      split at hstep
      · cases hstep
        exact ⟨⟨h.editable, h.stream, h.awake, h.counted⟩, kept_of_eq rfl⟩
      · cases hstep
  | read i n =>
      simp only [ConsoleState.step] at hstep
      split at hstep
      · cases hstep
        have hnew : (Call.wait n n []).Counted := (sub_self n).symm
        exact ⟨⟨h.editable, h.stream, h.awake, counted_setCall h hnew⟩, kept_of_eq rfl⟩
      · cases hstep
  | act i => exact h.act hstep
  | kill i =>
      cases hstep
      refine ⟨⟨h.editable, h.stream, fun j hj => ?_, h.counted⟩, kept_of_eq rfl⟩
      by_cases hij : j = i
      · simp [hij] at hj
      · exact h.awake j (by simpa [Function.update_of_ne hij] using hj)
  | exit i =>
      simp only [ConsoleState.step] at hstep
      split at hstep
      · split at hstep
        · cases hstep
          exact ⟨⟨h.editable, h.stream, h.awake, counted_setCall h trivial⟩, kept_of_eq rfl⟩
        · cases hstep
      · cases hstep

/-- A run of the console. -/
abbrev ConsoleRun (buf : Nat → UInt8) (killed : Nat → Bool)
    (tr : List (ConsoleState × ConsoleEvent)) (s : ConsoleState) : Prop :=
  Exec (StepOf ConsoleState.step) (ConsoleState.new buf killed) tr s

theorem ConsoleInv.of_run {buf : Nat → UInt8} {killed : Nat → Bool}
    {tr : List (ConsoleState × ConsoleEvent)} {s : ConsoleState}
    (hrun : ConsoleRun buf killed tr s) : ConsoleInv s :=
  Exec.invariant (fun _ _ _ h hstep => (h.step hstep).1) hrun (consoleInv_new buf killed)

/-- A call of `consoleread` may return `v` for `target` bytes, with `dst` copied, in the state `s`:
less than `target` only after a newline or at a `^D`, and `-1` when killed. -/
def ReturnsWell (s : ConsoleState) (i : Nat) (v target : Int) (dst : List UInt8) : Prop :=
  v < target → (v = -1 ∧ s.killed i = true) ∨
    (v = dst.length ∧ (dst.getLast? = some newline ∨ s.input.ready.head? = some (C 'D')))

theorem ConsoleInv.returnsWell {s : ConsoleState} (h : ConsoleInv s) {i : Nat} {v target : Int}
    {dst : List UInt8} (hresult : s.result i = some (v, target, dst)) :
    ReturnsWell s i v target dst := by
  have hcall := h.counted i
  intro hlt
  unfold ConsoleState.result at hresult
  split at hresult
  · rename_i target' n dst' heq
    rw [heq] at hcall
    have hlen : (dst'.length : Int) = target' - n := hcall
    have hround := rounds_readRound s.input (s.killed i) target' n
    generalize s.input.readRound (s.killed i) target' n = d at hresult hround
    -- what is next in the ring, for the two ends at a `^D`
    have hhead : s.input.r ≠ s.input.w → s.input.ready.head? = some (s.input.get s.input.r) := by
      intro hne
      rw [Input.ready_advance hne]
      rfl
    cases hround with
    | done hn =>
        cases hresult
        omega
    | killed hn hempty hkilled =>
        cases hresult
        exact .inl ⟨rfl, hkilled⟩
    | sleep => cases hresult
    | copy => cases hresult
    | saved hn hne heof hsome =>
        cases hresult
        refine .inr ⟨by rw [List.append_nil, hlen], .inr ?_⟩
        rw [hhead hne, heof]
    | eof hn hne heof =>
        cases hresult
        refine .inr ⟨by rw [List.append_nil, hlen], .inr ?_⟩
        rw [hhead hne, heof]
    | line hn hne hline =>
        cases hresult
        refine .inr ⟨?_, .inl ?_⟩
        · rw [List.length_append, List.length_singleton]
          push_cast
          omega
        · rw [List.getLast?_concat, hline]
  · cases hresult

/-- **The line discipline.** In every run the counters stay in order, at most `INPUT_BUF` apart;
what is committed stays in the ring until it is consumed; what readers got is a prefix of what was
committed, without the `^D`s; a read is short only after a newline or at a `^D`; and no process
sleeps while there is something to read. -/
theorem line_discipline {buf : Nat → UInt8} {killed : Nat → Bool}
    {tr : List (ConsoleState × ConsoleEvent)} {s : ConsoleState}
    (hrun : ConsoleRun buf killed tr s) :
    (s.input.w - s.input.r).toNat ≤ (s.input.e - s.input.r).toNat ∧
      (s.input.e - s.input.r).toNat ≤ INPUT_BUF ∧
      (∀ t e u, (t, e) ∈ tr → t.step e = some u → Kept t u) ∧
      s.copied <+: s.committed.filter (· ≠ C 'D') ∧
      (∀ t i v target dst, (t, .act i) ∈ tr → t.result i = some (v, target, dst) →
        ReturnsWell t i v target dst) ∧
      ∀ i, s.asleep i = true → s.input.r = s.input.w := by
  have hs := ConsoleInv.of_run hrun
  obtain ⟨consumed, hstream, hcopied⟩ := hs.stream
  refine ⟨hs.editable.valid.order, hs.editable.valid.bound, fun t e u hmem hstep => ?_, ?_,
    fun t i v target dst hmem hresult => ?_, hs.awake⟩
  · obtain ⟨pre, hpre, -⟩ := Exec.exists_upto hrun hmem
    exact ((ConsoleInv.of_run hpre).step hstep).2
  · rw [hstream, List.filter_append, hcopied]
    exact List.prefix_append _ _
  · obtain ⟨pre, hpre, -⟩ := Exec.exists_upto hrun hmem
    exact (ConsoleInv.of_run hpre).returnsWell hresult

/-- A process waits for five bytes; a line of two characters is typed, with a slip. -/
def oneLine : List ConsoleEvent :=
  [.read 0 5, .act 0, .act 0, .intr, .getc 104, .getc 120, .getc (C 'H'), .getc 13, .idle,
    .act 0, .act 0, .act 0]

/-- The state after `oneLine`. -/
def afterOneLine : Option ConsoleState :=
  runAll ConsoleState.step (ConsoleState.new (fun _ => 0) fun _ => false) oneLine

/-- A run in which a line is read. -/
theorem line_discipline_oneLine :
    ∃ tr s, ConsoleRun (fun _ => 0) (fun _ => false) tr s ∧ s.copied = [104, newline] ∧
      s.copied <+: s.committed.filter (· ≠ C 'D') := by
  obtain ⟨s, hs⟩ : ∃ s, afterOneLine = some s := Option.isSome_iff_exists.mp (by decide +kernel)
  have hcopied : afterOneLine.map ConsoleState.copied = some [104, newline] := by decide +kernel
  have hrun := exec_of_runAll ConsoleState.step hs
  refine ⟨_, s, hrun, ?_, (line_discipline hrun).2.2.2.1⟩
  rw [hs, Option.map_some] at hcopied
  exact Option.some.inj hcopied

end Xv6.Console

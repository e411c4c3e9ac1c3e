import Xv6.Sh4a.Machine
import Mathlib.Tactic.IntervalCases

/-! # Context switch and interrupt entry

The code of `swtch.S` and of `intr_entry` in `entry.S`, instruction by instruction, with what they
leave in memory and in the registers. `swtch` names the two banks of `R0`–`R7` through `SR.RB`, and
it loads the new context *before* the new `SR`: `swtch_bank0` records which words end up in which
physical bank. -/

namespace Xv6.Sh4a

/-- `swtch(struct context **old, struct context *new)` up to its `rts`. -/
def swtchCode : List Instr :=
  [ -- start of store: system registers
    .push .r15, .push .sr, .push .pr, .push .macl, .push .mach, .push .gbr,
    -- general purpose registers (bank1)
    .push (.bank 7), .push (.bank 6), .push (.bank 5), .push (.bank 4),
    .push (.bank 3), .push (.bank 2), .push (.bank 1), .push (.bank 0),
    -- control registers
    .push .spc, .push .ssr,
    -- not-banked registers
    .push (.high 6), .push (.high 5), .push (.high 4), .push (.high 3),
    .push (.high 2), .push (.high 1), .push (.high 0),
    -- general purpose registers (bank0)
    .push (.low 7), .push (.low 6), .push (.low 5), .push (.low 4),
    .push (.low 3), .push (.low 2), .push (.low 1), .push (.low 0),
    -- mov.l r15, @r4
    .store .r15 (.low 4),
    -- mov r5, r15
    .mov (.low 5) .r15,
    -- start of load: general purpose registers (bank0)
    .pop .r15 (.low 0), .pop .r15 (.low 1), .pop .r15 (.low 2), .pop .r15 (.low 3),
    .pop .r15 (.low 4), .pop .r15 (.low 5), .pop .r15 (.low 6), .pop .r15 (.low 7),
    -- not-banked registers
    .pop .r15 (.high 0), .pop .r15 (.high 1), .pop .r15 (.high 2), .pop .r15 (.high 3),
    .pop .r15 (.high 4), .pop .r15 (.high 5), .pop .r15 (.high 6),
    -- control registers
    .pop .r15 .ssr, .pop .r15 .spc,
    -- general purpose registers (bank1)
    .pop .r15 (.bank 0), .pop .r15 (.bank 1), .pop .r15 (.bank 2), .pop .r15 (.bank 3),
    .pop .r15 (.bank 4), .pop .r15 (.bank 5), .pop .r15 (.bank 6), .pop .r15 (.bank 7),
    -- system registers
    .pop .r15 .gbr, .pop .r15 .mach, .pop .r15 .macl, .pop .r15 .pr, .pop .r15 .sr,
    .pop .r15 .r15 ]

/-- A call of `swtch`. -/
def swtch (m : Machine) : Machine := execAll m swtchCode

/-- The registers of `struct context` below `sr`, in the order of its fields. -/
def contextRegs : List Loc :=
  [.low 0, .low 1, .low 2, .low 3, .low 4, .low 5, .low 6, .low 7,
    .high 0, .high 1, .high 2, .high 3, .high 4, .high 5, .high 6, .ssr, .spc,
    .bank 0, .bank 1, .bank 2, .bank 3, .bank 4, .bank 5, .bank 6, .bank 7,
    .gbr, .mach, .macl, .pr]

/-- The words of the context that `swtch` saves: the fields of `struct context`. -/
def savedContext (m : Machine) : List Word := contextRegs.map m.get ++ [m.sr, m.r15]

/-- Where `swtch` saves the context of its caller. -/
def contextAddr (m : Machine) : Word := m.r15 - 124#32

/-- The memory after the store half of `swtch`. -/
def swtchMem (m : Machine) : Word → Word :=
  Function.update (putWords m.mem (contextAddr m) (savedContext m)) (m.get (.low 4))
    (contextAddr m)

/-- The registers loaded by `swtch` before `sr`, from the context at `r5`. -/
def swtchLoaded (m : Machine) : Machine :=
  execAll { m with r15 := m.get (.low 5), mem := swtchMem m } (contextRegs.map (.pop .r15))

theorem contextRegs_plain : ∀ l ∈ contextRegs, l ≠ .r15 ∧ l ≠ .sr := by decide

theorem contextRegs_nodup : contextRegs.Nodup := by decide

theorem contextRegs_low (n : Fin 8) : contextRegs[n.val]? = some (.low n) := by
  revert n; decide

theorem contextRegs_bank (n : Fin 8) : contextRegs[17 + n.val]? = some (.bank n) := by
  revert n; decide

variable (m : Machine)

@[simp] theorem length_savedContext : (savedContext m).length = 31 := rfl

/-- The store half of `swtch`: the context is saved below the stack pointer. -/
theorem execAll_swtch_store :
    execAll m (.push .r15 :: (Loc.sr :: contextRegs.reverse).map .push)
      = { m with r15 := contextAddr m, mem := putWords m.mem (contextAddr m) (savedContext m) } := by
  have hplain : ∀ l ∈ Loc.sr :: contextRegs.reverse, l ≠ .r15 := by decide
  have hget : (Loc.sr :: contextRegs.reverse).map (exec m (.push .r15)).get
      = (Loc.sr :: contextRegs.reverse).map m.get :=
    List.map_congr_left fun l hl => get_push m (hplain l hl)
  have hlen : (Loc.sr :: contextRegs.reverse).length = 30 := rfl
  rw [execAll_cons, execAll_push _ _ hplain (by rw [hlen]; omega), hget, hlen]
  have haddr : m.r15 - 4 - BitVec.ofNat 32 (4 * 30) = contextAddr m := by
    rw [contextAddr]; bv_omega
  have hrev : ((Loc.sr :: contextRegs.reverse).map m.get).reverse
      = contextRegs.map m.get ++ [m.sr] := by
    rw [List.map_cons, List.reverse_cons, List.map_reverse, List.reverse_reverse]
    rfl
  have hput := putWords_push m.mem (m.r15 - 4) m.r15 (contextRegs.map m.get ++ [m.sr])
    (by simp [contextRegs])
  have hlen' : (contextRegs.map m.get ++ [m.sr]).length = 30 := by simp [contextRegs]
  rw [hlen', haddr, List.append_assoc] at hput
  rw [hrev]
  simp only [exec, haddr, Machine.get]
  rw [hput]
  rfl

/-- **`swtch` in two halves**: everything below `sr` is loaded under the caller's `SR`, then `sr`
and `r15`. -/
theorem swtch_eq : swtch m = execAll (swtchLoaded m) [.pop .r15 .sr, .pop .r15 .r15] := by
  have hcode : swtchCode = (.push .r15 :: (Loc.sr :: contextRegs.reverse).map .push)
      ++ ([.store .r15 (.low 4), .mov (.low 5) .r15]
        ++ (contextRegs.map (.pop .r15) ++ [.pop .r15 .sr, .pop .r15 .r15])) := rfl
  rw [swtch, hcode, execAll_append, execAll_swtch_store, execAll_append, execAll_append]
  rfl

/-- Where the load half leaves the stack pointer and the memory. -/
theorem swtchLoaded_r15 :
    (swtchLoaded m).r15 = m.get (.low 5) + 116#32 ∧ (swtchLoaded m).mem = swtchMem m :=
  execAll_pop_r15 contextRegs _ fun l hl => (contextRegs_plain l hl).1

theorem swtchLoaded_sel : (swtchLoaded m).sel = m.sel :=
  sel_execAll_pop contextRegs _ contextRegs_plain

/-- The registers after the two last loads of `swtch`. -/
theorem execAll_last_loads :
    execAll m [.pop .r15 .sr, .pop .r15 .r15]
      = { m with sr := m.mem m.r15, r15 := m.mem (m.r15 + 4) } := rfl

@[simp] theorem swtch_mem : (swtch m).mem = swtchMem m := by
  rw [swtch_eq, execAll_last_loads]
  exact (swtchLoaded_r15 m).2

/-- The new `SR` comes from the context switched to. -/
theorem swtch_sr : (swtch m).sr = swtchMem m (m.get (.low 5) + 116#32) := by
  rw [swtch_eq, execAll_last_loads]
  show (swtchLoaded m).mem (swtchLoaded m).r15 = _
  rw [(swtchLoaded_r15 m).1, (swtchLoaded_r15 m).2]

/-- **Which words reach bank 0.** The load half runs under the *caller's* `SR`: a caller that works
in bank 0 puts the `r0`–`r7` fields of the new context there, one that works in bank 1 its
`r0_bank`–`r7_bank` fields. -/
theorem swtch_bank0 (n : Fin 8) :
    (swtch m).bank0 n = swtchMem m (m.get (.low 5)
      + BitVec.ofNat 32 (4 * (if m.sel then 17 + n.val else n.val))) := by
  have hphys : (swtch m).bank0 n = (swtchLoaded m).bank0 n := by
    rw [swtch_eq, execAll_last_loads]
  rw [hphys]
  cases hs : m.sel with
  | true =>
      have hget : (swtchLoaded m).get (.bank n) = (swtchLoaded m).bank0 n := by
        rw [Machine.get, swtchLoaded_sel, hs, if_pos rfl]
      rw [← hget, swtchLoaded,
        get_execAll_pop _ _ contextRegs_plain contextRegs_nodup (contextRegs_bank n)]
      rfl
  | false =>
      have hget : (swtchLoaded m).get (.low n) = (swtchLoaded m).bank0 n := by
        rw [Machine.get, swtchLoaded_sel, hs, if_neg (by simp)]
      rw [← hget, swtchLoaded,
        get_execAll_pop _ _ contextRegs_plain contextRegs_nodup (contextRegs_low n)]
      rfl

/-- What `swtch` saves at the `i`-th word of the caller's context, unless the cell `*old` is
there. -/
theorem swtchMem_saved {i : Nat} (hi : i < 31)
    (hold : contextAddr m + BitVec.ofNat 32 (4 * i) ≠ m.get (.low 4)) :
    swtchMem m (contextAddr m + BitVec.ofNat 32 (4 * i)) = (savedContext m).getD i 0 := by
  rw [swtchMem, Function.update_of_ne hold, putWords_of_lt _ _ _ (by simpa using hi) (by simp)]

/-- The range of `n` words from `a` on is not written by the `swtch` called in `m`. -/
def Room (m : Machine) (a : Word) (n : Nat) : Prop :=
  ∀ i < n, a + BitVec.ofNat 32 (4 * i) ≠ m.get (.low 4) ∧
    ∀ j < 31, a + BitVec.ofNat 32 (4 * i) ≠ contextAddr m + BitVec.ofNat 32 (4 * j)

variable {m}

/-- A range that `swtch` does not write is kept. -/
theorem swtchMem_of_room {a : Word} {n : Nat} (h : Room m a n) {i : Nat} (hi : i < n) :
    swtchMem m (a + BitVec.ofNat 32 (4 * i)) = m.mem (a + BitVec.ofNat 32 (4 * i)) := by
  obtain ⟨hcell, hctx⟩ := h i hi
  rw [swtchMem, Function.update_of_ne hcell,
    putWords_of_ne _ _ _ fun j hj => hctx j (by simpa using hj)]

/-! ## Interrupts -/

/-- What the processor does on an interrupt: `SR`, `PC` and `R15` are copied and
`MD = RB = BL = 1`. -/
def excEntry (m : Machine) : Machine :=
  { m with ssr := m.sr, spc := m.pc, sgr := m.r15, sr := m.sr ||| 0x70000000#32 }

/-- The start of `intr_entry`: `SSR.MD` is shifted into `T`. -/
def entryProbe : List Instr := [.mov .ssr .r15, .shll .r15, .shll .r15]

/-- The move from the user stack to the process's kernel stack; `procVar` is the address of the
variable `proc`, whose `kstack` field is at offset 8. -/
def entrySwitch (procVar : Word) : List Instr :=
  [.push (.low 2), .push (.low 1), .lit procVar (.low 1), .load 0 (.low 1) (.low 1),
    .load 8 (.low 1) (.low 1), .lit 4096#32 (.low 2), .add (.low 2) (.low 1),
    .mov .r15 (.low 2), .mov (.low 1) .r15, .pop (.low 2) (.low 1), .pop (.low 2) (.low 2)]

/-- The saving of the trapframe. -/
def entrySave : List Instr :=
  [.push .pr, .push .macl, .push .mach, .push .gbr, .push .sgr, .push .ssr, .push .spc,
    .push (.high 6), .push (.high 5), .push (.high 4), .push (.high 3), .push (.high 2),
    .push (.high 1), .push (.high 0), .push (.low 7), .push (.low 6), .push (.low 5),
    .push (.low 4), .push (.low 3), .push (.low 2), .push (.low 1), .push (.low 0)]

/-- `intr_entry` from the interrupt to the call of the service routine. The delay slot
`stc sgr, r15` runs whether or not the branch `bt/s intr_no_change` is taken. -/
def intrEntry (procVar : Word) (m : Machine) : Machine :=
  let probed := execAll (excEntry m) entryProbe
  let slot := exec probed (.mov .sgr .r15)
  execAll (if probed.tbit then slot else execAll slot (entrySwitch procVar)) entrySave

/-- The restoring of the trapframe, up to `rte`. -/
def intrRestore : List Instr :=
  [.pop .r15 (.low 0), .pop .r15 (.low 1), .pop .r15 (.low 2), .pop .r15 (.low 3),
    .pop .r15 (.low 4), .pop .r15 (.low 5), .pop .r15 (.low 6), .pop .r15 (.low 7),
    .pop .r15 (.high 0), .pop .r15 (.high 1), .pop .r15 (.high 2), .pop .r15 (.high 3),
    .pop .r15 (.high 4), .pop .r15 (.high 5), .pop .r15 (.high 6), .pop .r15 .spc, .pop .r15 .ssr,
    .addi 4 .r15, .pop .r15 .gbr, .pop .r15 .mach, .pop .r15 .macl, .pop .r15 .pr,
    .addi (-20) .r15, .load 0 .r15 .r15]

/-- `rte`. -/
def rte (m : Machine) : Machine := { m with sr := m.ssr, pc := m.spc }

/-- `intr_entry` from the return of the service routine to its `rte`. -/
def intrReturn (m : Machine) : Machine := rte (execAll m intrRestore)

/-- The registers of `struct trapframe`, in the order of its fields. -/
def trapframeRegs : List Loc :=
  [.low 0, .low 1, .low 2, .low 3, .low 4, .low 5, .low 6, .low 7,
    .high 0, .high 1, .high 2, .high 3, .high 4, .high 5, .high 6,
    .spc, .ssr, .sgr, .gbr, .mach, .macl, .pr]

/-- The saving half: the trapframe lies below the old stack pointer. -/
theorem execAll_entrySave (m : Machine) :
    execAll m entrySave
      = { m with r15 := m.r15 - 88#32
                 mem := putWords m.mem (m.r15 - 88#32) (trapframeRegs.map m.get) } := by
  have hcode : entrySave = trapframeRegs.reverse.map .push := rfl
  rw [hcode, execAll_push _ _ (by decide) (by decide), List.map_reverse, List.reverse_reverse]
  rfl

/-- A location the stack switch may write: a banked register of the handler, or `R15`. -/
def Loc.scratch : Loc → Bool
  | .low _ => true
  | .r15 => true
  | _ => false

/-- An instruction that writes only scratch locations and memory. -/
def Instr.scratch : Instr → Bool
  | .push _ => true
  | .store _ _ => true
  | .pop p l => p.scratch && l.scratch
  | .load _ _ l => l.scratch
  | .lit _ l => l.scratch
  | .mov _ l => l.scratch
  | .addi _ l => l.scratch
  | .add _ l => l.scratch
  | .shll _ => false

/-- Writing a scratch location keeps the others. -/
theorem get_set_scratch (m : Machine) {l l' : Loc} (v : Word) (h : l.scratch = true)
    (h' : l'.scratch = false) : (m.set l v).get l' = m.get l' := by
  refine m.get_set_of_ne v ?_ ?_
  · rintro rfl; cases h
  · rintro rfl; rw [h] at h'; cases h'

/-- A scratch instruction keeps every location that is not scratch. -/
theorem get_exec_scratch (m : Machine) {i : Instr} (hi : i.scratch = true) {l : Loc}
    (hl : l.scratch = false) : (exec m i).get l = m.get l := by
  cases i with
  | push s => exact get_push m (by rintro rfl; cases hl)
  | store s p => cases l <;> rfl
  | pop p d =>
      obtain ⟨hp, hd⟩ : p.scratch = true ∧ d.scratch = true := by simpa [Instr.scratch] using hi
      simp only [exec]
      split
      · exact get_set_scratch m _ hd hl
      · rw [get_set_scratch _ _ hd hl, get_set_scratch _ _ hp hl]
  | shll d => cases hi
  | load w p d => exact get_set_scratch m _ hi hl
  | lit w d => exact get_set_scratch m _ hi hl
  | mov s d => exact get_set_scratch m _ hi hl
  | addi w d => exact get_set_scratch m _ hi hl
  | add s d => exact get_set_scratch m _ hi hl

/-- Scratch code keeps every location that is not scratch. -/
theorem get_execAll_scratch (code : List Instr) (m : Machine) (hcode : code.all Instr.scratch = true)
    {l : Loc} (hl : l.scratch = false) : (execAll m code).get l = m.get l := by
  induction code generalizing m with
  | nil => rfl
  | cons i code ih =>
      rw [List.all_cons, Bool.and_eq_true] at hcode
      rw [execAll_cons, ih _ hcode.2, get_exec_scratch m hcode.1 hl]

/-- The state in which `intr_entry` saves the trapframe of a process interrupted in user mode. -/
def entered (procVar : Word) (m : Machine) : Machine :=
  execAll (exec (execAll (excEntry m) entryProbe) (.mov .sgr .r15)) (entrySwitch procVar)

/-- Shifting a word out of `R15` leaves `SR` alone but for `T`. -/
theorem getLsbD_shll (x y : Word) {i : Nat} (h0 : 0 < i) (hi : i < 32) :
    ((x &&& 0xfffffffe#32) ||| (y >>> 31)).getLsbD i = x.getLsbD i := by
  have hhigh : (y >>> 31).getLsbD i = false := by
    rw [BitVec.getLsbD_ushiftRight]
    exact BitVec.getLsbD_of_ge _ _ (by omega)
  have hmask : (0xfffffffe#32).getLsbD i = true := by
    interval_cases i <;> rfl
  rw [BitVec.getLsbD_or, BitVec.getLsbD_and, hhigh, hmask, Bool.and_true, Bool.or_false]

/-- The probe finds `SSR.MD` in `T`. -/
theorem tbit_entryProbe (m : Machine) : (execAll (excEntry m) entryProbe).tbit = m.sr.getLsbD 30 := by
  show ((_ &&& 0xfffffffe#32) ||| ((m.sr <<< 1) >>> 31)).getLsbD 0 = _
  rw [BitVec.getLsbD_or, BitVec.getLsbD_and, BitVec.getLsbD_ushiftRight, BitVec.getLsbD_shiftLeft]
  simp

/-- The handler runs in privileged mode on bank 1. -/
theorem sel_entryProbe (m : Machine) : (execAll (excEntry m) entryProbe).sel = true := by
  have hbit (i : Nat) (h0 : 0 < i) (hi : i < 32) :
      (execAll (excEntry m) entryProbe).sr.getLsbD i = (m.sr ||| 0x70000000#32).getLsbD i := by
    show ((((m.sr ||| 0x70000000#32) &&& 0xfffffffe#32) ||| (m.sr >>> 31)) &&& 0xfffffffe#32
      ||| ((m.sr <<< 1) >>> 31)).getLsbD i = _
    rw [getLsbD_shll _ _ h0 hi, getLsbD_shll _ _ h0 hi]
  rw [Machine.sel, hbit 30 (by omega) (by omega), hbit 29 (by omega) (by omega),
    BitVec.getLsbD_or, BitVec.getLsbD_or]
  simp

/-- Interrupted in user mode, `intr_entry` changes stacks before it saves the trapframe. -/
theorem intrEntry_user (procVar : Word) (huser : m.sr.getLsbD 30 = false) :
    intrEntry procVar m = execAll (entered procVar m) entrySave := by
  simp only [intrEntry, tbit_entryProbe, huser]
  rfl

/-- Everything but `R15`, the handler's own `R0`–`R7` and `SR` is as the interrupt left it. -/
theorem get_entered (procVar : Word) (m : Machine) {l : Loc} (hl : l.scratch = false)
    (hsr : l ≠ .sr) (hbank : ∀ n, l ≠ .bank n) :
    (entered procVar m).get l = (excEntry m).get l := by
  have hcode : (entrySwitch procVar).all Instr.scratch = true := rfl
  rw [entered, get_execAll_scratch _ _ hcode hl, get_exec_scratch _ rfl hl]
  cases l with
  | sr => exact absurd rfl hsr
  | bank n => exact absurd rfl (hbank n)
  | low n => cases hl
  | r15 => cases hl
  | _ => rfl

/-- The handler keeps working in bank 1 while it changes stacks. -/
theorem sel_entered (procVar : Word) (m : Machine) : (entered procVar m).sel = true := by
  have hcode : (entrySwitch procVar).all Instr.scratch = true := rfl
  have hsr : (entered procVar m).get .sr = (execAll (excEntry m) entryProbe).get .sr := by
    rw [entered, get_execAll_scratch _ _ hcode rfl, get_exec_scratch _ rfl rfl]
  have hsel := sel_entryProbe m
  rw [Machine.sel] at hsel ⊢
  have hsr' : (entered procVar m).sr = (execAll (excEntry m) entryProbe).sr := hsr
  rw [hsr']
  exact hsel

/-- The user's `R0`–`R7` stay in bank 0 while the handler changes stacks. -/
theorem bank0_entered (procVar : Word) (m : Machine) : (entered procVar m).bank0 = m.bank0 := by
  have hcode : (entrySwitch procVar).all Instr.scratch = true := rfl
  funext n
  have hget : (entered procVar m).get (.bank n) = (execAll (excEntry m) entryProbe).get (.bank n) := by
    rw [entered, get_execAll_scratch _ _ hcode rfl, get_exec_scratch _ rfl rfl]
  rw [Machine.get, Machine.get, sel_entered, sel_entryProbe, if_pos rfl, if_pos rfl] at hget
  rw [hget]
  rfl

/-- **What `intr_entry` saves** of a process interrupted in user mode, word by word from `R8` on. -/
theorem intrEntry_trapframe (procVar : Word) (huser : m.sr.getLsbD 30 = false) {i : Nat} {l : Loc}
    (hi : trapframeRegs[i]? = some l) (hlow : 8 ≤ i) :
    (intrEntry procVar m).mem ((intrEntry procVar m).r15 + BitVec.ofNat 32 (4 * i))
      = (excEntry m).get l := by
  have hlt : i < 22 := (List.getElem?_eq_some_iff.mp hi).1
  rw [intrEntry_user procVar huser, execAll_entrySave]
  show putWords _ _ _ (_ + _) = _
  rw [putWords_of_lt _ _ _ (by simpa [trapframeRegs] using hlt) (by simp [trapframeRegs]) 0,
    List.getD_eq_getElem?_getD, List.getElem?_map, hi, Option.map_some, Option.getD_some]
  have hmem : l ∈ trapframeRegs.drop 8 := by
    refine List.mem_of_getElem? (i := i - 8) ?_
    rw [List.getElem?_drop, show 8 + (i - 8) = i by omega, hi]
  have hplain : ∀ l ∈ trapframeRegs.drop 8, l.scratch = false ∧ l ≠ .sr ∧ ∀ n, l ≠ .bank n := by
    decide
  obtain ⟨hs, hsr, hb⟩ := hplain l hmem
  exact get_entered procVar m hs hsr hb

/-- The handler starts on bank 1, with the user's `R0`–`R7` in bank 0. -/
theorem intrEntry_banks (procVar : Word) (huser : m.sr.getLsbD 30 = false) :
    (intrEntry procVar m).sel = true ∧ (intrEntry procVar m).bank0 = m.bank0 := by
  rw [intrEntry_user procVar huser, execAll_entrySave]
  exact ⟨sel_entered procVar m, bank0_entered procVar m⟩

end Xv6.Sh4a

import Mathlib.Data.BitVec
import Mathlib.Data.List.GetD
import Mathlib.Tactic.Common

/-! # The SH-4A instructions of the trap and switch code

The registers of an SH-4A processor, with both banks of `R0`–`R7`, and the handful of instructions
that `entry.S` and `swtch.S` are written in. Registers that a push or a pop may name are gathered in
`Loc`; which bank `R0`–`R7` and `Rn_BANK` stand for depends on `SR.MD` and `SR.RB`. -/

namespace Xv6.Sh4a

open Function (update update_of_ne update_self)

/-- A 32-bit word, also used as the address of a word. -/
abbrev Word : Type := BitVec 32

instance neZeroBank : NeZero 8 := ⟨by decide⟩

/-- What an instruction can name: `low n` is `Rn` for `n < 8`, `bank n` is `Rn_BANK`, `high n` is
`R(8+n)` up to `R14`. -/
inductive Loc
  | low (n : Fin 8)
  | bank (n : Fin 8)
  | high (n : Fin 7)
  | r15
  | sr
  | ssr
  | spc
  | sgr
  | gbr
  | mach
  | macl
  | pr
  deriving DecidableEq

/-- The state of the processor and of its memory, one word for each word address. -/
structure Machine where
  bank0 : Fin 8 → Word
  bank1 : Fin 8 → Word
  high : Fin 7 → Word
  r15 : Word
  sr : Word
  ssr : Word
  spc : Word
  sgr : Word
  gbr : Word
  mach : Word
  macl : Word
  pr : Word
  pc : Word
  mem : Word → Word

namespace Machine

/-- `SR.MD` and `SR.RB` are both set: `R0`–`R7` are the registers of bank 1. -/
def sel (m : Machine) : Bool := m.sr.getLsbD 30 && m.sr.getLsbD 29

/-- `SR.T`. -/
def tbit (m : Machine) : Bool := m.sr.getLsbD 0

/-- Read a register. -/
def get (m : Machine) : Loc → Word
  | .low n => if m.sel then m.bank1 n else m.bank0 n
  | .bank n => if m.sel then m.bank0 n else m.bank1 n
  | .high n => m.high n
  | .r15 => m.r15
  | .sr => m.sr
  | .ssr => m.ssr
  | .spc => m.spc
  | .sgr => m.sgr
  | .gbr => m.gbr
  | .mach => m.mach
  | .macl => m.macl
  | .pr => m.pr

/-- Write a register. -/
def set (m : Machine) (l : Loc) (v : Word) : Machine :=
  match l with
  | .low n =>
      if m.sel then { m with bank1 := update m.bank1 n v }
      else { m with bank0 := update m.bank0 n v }
  | .bank n =>
      if m.sel then { m with bank0 := update m.bank0 n v }
      else { m with bank1 := update m.bank1 n v }
  | .high n => { m with high := update m.high n v }
  | .r15 => { m with r15 := v }
  | .sr => { m with sr := v }
  | .ssr => { m with ssr := v }
  | .spc => { m with spc := v }
  | .sgr => { m with sgr := v }
  | .gbr => { m with gbr := v }
  | .mach => { m with mach := v }
  | .macl => { m with macl := v }
  | .pr => { m with pr := v }

/-- Writing a register other than `SR` leaves the choice of bank alone. -/
theorem sel_set (m : Machine) {l : Loc} (v : Word) (h : l ≠ .sr) : (m.set l v).sel = m.sel := by
  cases l with
  | sr => exact absurd rfl h
  | low n => simp only [set]; split <;> rfl
  | bank n => simp only [set]; split <;> rfl
  | _ => rfl

@[simp] theorem mem_set (m : Machine) (l : Loc) (v : Word) : (m.set l v).mem = m.mem := by
  cases l <;> simp only [set] <;> split <;> rfl

/-- Writing a register other than `R15` leaves `R15` alone. -/
theorem r15_set (m : Machine) {l : Loc} (v : Word) (h : l ≠ .r15) : (m.set l v).r15 = m.r15 := by
  cases l with
  | r15 => exact absurd rfl h
  | low n => simp only [set]; split <;> rfl
  | bank n => simp only [set]; split <;> rfl
  | _ => rfl

/-- A register that was just written holds the value written. -/
@[simp] theorem get_set_self (m : Machine) (l : Loc) (v : Word) : (m.set l v).get l = v := by
  cases l with
  | low n =>
      have hsel := m.sel_set (l := .low n) v (by simp)
      by_cases hs : m.sel <;> simp [get, hsel, hs] <;> simp [set, hs]
  | bank n =>
      have hsel := m.sel_set (l := .bank n) v (by simp)
      by_cases hs : m.sel <;> simp [get, hsel, hs] <;> simp [set, hs]
  | high n => simp [get, set]
  | _ => rfl

/-- Writing a register other than `SR` leaves every other register alone: the two banks are
distinct whichever of them is selected. -/
theorem get_set_of_ne (m : Machine) {l l' : Loc} (v : Word) (hsr : l ≠ .sr) (h : l' ≠ l) :
    (m.set l v).get l' = m.get l' := by
  have hsel := m.sel_set v hsr
  cases l with
  | sr => exact absurd rfl hsr
  | low n =>
      cases l' with
      | low n' =>
          have hn : n' ≠ n := fun e => h (by rw [e])
          by_cases hs : m.sel <;> simp [get, hsel, hs] <;> simp [set, hs, update_of_ne hn]
      | bank n' => by_cases hs : m.sel <;> simp [get, hsel, hs] <;> simp [set, hs]
      | _ => simp only [set]; split <;> rfl
  | bank n =>
      cases l' with
      | low n' => by_cases hs : m.sel <;> simp [get, hsel, hs] <;> simp [set, hs]
      | bank n' =>
          have hn : n' ≠ n := fun e => h (by rw [e])
          by_cases hs : m.sel <;> simp [get, hsel, hs] <;> simp [set, hs, update_of_ne hn]
      | _ => simp only [set]; split <;> rfl
  | high n =>
      cases l' with
      | high n' =>
          have hn : n' ≠ n := fun e => h (by rw [e])
          simp [get, set, update_of_ne hn]
      | _ => rfl
  | r15 => cases l' <;> first | rfl | exact absurd rfl h
  | ssr => cases l' <;> first | rfl | exact absurd rfl h
  | spc => cases l' <;> first | rfl | exact absurd rfl h
  | sgr => cases l' <;> first | rfl | exact absurd rfl h
  | gbr => cases l' <;> first | rfl | exact absurd rfl h
  | mach => cases l' <;> first | rfl | exact absurd rfl h
  | macl => cases l' <;> first | rfl | exact absurd rfl h
  | pr => cases l' <;> first | rfl | exact absurd rfl h

end Machine

/-- The instructions used, each in the register-transfer form of the programming manual. -/
inductive Instr
  /-- `mov.l Rm,@-r15`, `stc.l`, `sts.l`: store below the stack pointer, then move it down. -/
  | push (l : Loc)
  /-- `mov.l @Rp+,Rn`, `ldc.l`, `lds.l`: load, then move the pointer up unless it was loaded. -/
  | pop (p l : Loc)
  /-- `mov.l Rs,@Rp`. -/
  | store (s p : Loc)
  /-- `mov.l @(disp,Rp),Rn`. -/
  | load (disp : Word) (p l : Loc)
  /-- `mov.l label,Rn`, a literal from the literal pool. -/
  | lit (w : Word) (l : Loc)
  /-- `mov Rm,Rn` and `stc c,Rn`. -/
  | mov (s l : Loc)
  /-- `add #imm,Rn`. -/
  | addi (w : Word) (l : Loc)
  /-- `add Rm,Rn`. -/
  | add (s l : Loc)
  /-- `shll Rn`: shift left, the bit shifted out goes to `T`. -/
  | shll (l : Loc)

/-- One instruction. -/
def exec (m : Machine) : Instr → Machine
  | .push l =>
      { m with r15 := m.r15 - 4, mem := update m.mem (m.r15 - 4) (m.get l) }
  | .pop p l =>
      let v := m.mem (m.get p)
      if l = p then m.set l v else (m.set p (m.get p + 4)).set l v
  | .store s p => { m with mem := update m.mem (m.get p) (m.get s) }
  | .load disp p l => m.set l (m.mem (m.get p + disp))
  | .lit w l => m.set l w
  | .mov s l => m.set l (m.get s)
  | .addi w l => m.set l (m.get l + w)
  | .add s l => m.set l (m.get l + m.get s)
  | .shll l =>
      let v := m.get l
      let m' := m.set l (v <<< 1)
      { m' with sr := (m'.sr &&& 0xfffffffe#32) ||| (v >>> 31) }

/-- A straight piece of code. -/
def execAll (m : Machine) (code : List Instr) : Machine := code.foldl exec m

@[simp] theorem execAll_nil (m : Machine) : execAll m [] = m := rfl

@[simp] theorem execAll_cons (m : Machine) (i : Instr) (code : List Instr) :
    execAll m (i :: code) = execAll (exec m i) code := rfl

theorem execAll_append (m : Machine) (code code' : List Instr) :
    execAll m (code ++ code') = execAll (execAll m code) code' :=
  List.foldl_append

/-! ## Runs of pushes -/

/-- Memory with the words of a list written from an address upwards. -/
def putWords (mem : Word → Word) (a : Word) (vs : List Word) : Word → Word :=
  fun x => if (x - a).toNat % 4 = 0 then vs.getD ((x - a).toNat / 4) (mem x) else mem x

/-- A word of the written range. -/
theorem putWords_of_lt (mem : Word → Word) (a : Word) (vs : List Word) {i : Nat}
    (hi : i < vs.length) (hlen : vs.length < 1024) (d : Word) :
    putWords mem a vs (a + BitVec.ofNat 32 (4 * i)) = vs.getD i d := by
  have hoff : (a + BitVec.ofNat 32 (4 * i) - a).toNat = 4 * i := by bv_omega
  rw [putWords, hoff, if_pos (by omega), Nat.mul_div_cancel_left i (by omega),
    List.getD_eq_getElem _ _ hi, List.getD_eq_getElem _ _ hi]

/-- A word whose address is none of the written ones. -/
theorem putWords_of_ne (mem : Word → Word) (a : Word) (vs : List Word) {x : Word}
    (h : ∀ i < vs.length, x ≠ a + BitVec.ofNat 32 (4 * i)) : putWords mem a vs x = mem x := by
  rw [putWords]
  split
  · rename_i hmod
    by_cases hi : (x - a).toNat / 4 < vs.length
    · refine absurd ?_ (h _ hi)
      have hback : 4 * ((x - a).toNat / 4) = (x - a).toNat := by omega
      rw [hback]
      bv_omega
    · rw [List.getD_eq_default _ _ (by omega)]
  · rfl

/-- Pushing one word in front of a written range extends the range downwards. -/
theorem putWords_push (mem : Word → Word) (a v : Word) (vs : List Word) (hlen : vs.length < 1024) :
    putWords (update mem a v) (a - BitVec.ofNat 32 (4 * vs.length)) vs
      = putWords mem (a - BitVec.ofNat 32 (4 * vs.length)) (vs ++ [v]) := by
  funext x
  simp only [putWords]
  split
  · rename_i hmod
    by_cases hx : x = a
    · subst hx
      have hoff : (x - (x - BitVec.ofNat 32 (4 * vs.length))).toNat = 4 * vs.length := by bv_omega
      rw [hoff, Nat.mul_div_cancel_left _ (by omega), update_self,
        List.getD_eq_default _ _ (le_refl _), List.getD_append_right _ _ _ _ (le_refl _)]
      simp
    · rw [update_of_ne hx]
      by_cases hi : (x - (a - BitVec.ofNat 32 (4 * vs.length))).toNat / 4 < vs.length
      · rw [List.getD_append _ _ _ _ hi]
      · have hne : (x - (a - BitVec.ofNat 32 (4 * vs.length))).toNat ≠ 4 * vs.length := by bv_omega
        rw [List.getD_eq_default _ _ (by omega), List.getD_eq_default]
        rw [List.length_append, List.length_singleton]
        omega
  · rename_i hmod
    have hx : x ≠ a := by
      intro e
      subst e
      exact hmod (by
        have hoff : (x - (x - BitVec.ofNat 32 (4 * vs.length))).toNat = 4 * vs.length := by bv_omega
        omega)
    rw [update_of_ne hx]

/-- The registers after a run of pushes: only `R15` has moved. -/
theorem get_push (m : Machine) {l l' : Loc} (h : l' ≠ .r15) :
    (exec m (.push l)).get l' = m.get l' := by
  cases l' with
  | r15 => exact absurd rfl h
  | _ => rfl

/-- **A run of pushes** moves `R15` down and writes the registers, first pushed at the top. -/
theorem execAll_push (ls : List Loc) (m : Machine) (hr : ∀ l ∈ ls, l ≠ .r15)
    (hlen : ls.length < 1024) :
    execAll m (ls.map .push)
      = { m with
          r15 := m.r15 - BitVec.ofNat 32 (4 * ls.length)
          mem := putWords m.mem (m.r15 - BitVec.ofNat 32 (4 * ls.length)) (ls.map m.get).reverse } := by
  induction ls generalizing m with
  | nil =>
      have hmem : putWords m.mem m.r15 [] = m.mem := by
        funext x; exact putWords_of_ne _ _ _ (by simp)
      simp [hmem]
  | cons l ls ih =>
      have hr' : ∀ l' ∈ ls, l' ≠ .r15 := fun l' hl' => hr l' (.tail _ hl')
      have hlen' : ls.length < 1024 := by simp at hlen; omega
      have hget : ls.map (exec m (.push l)).get = ls.map m.get :=
        List.map_congr_left fun l' hl' => get_push m (hr' l' hl')
      rw [List.map_cons, execAll_cons, ih _ hr' hlen', hget, List.map_cons, List.reverse_cons]
      have haddr : m.r15 - 4 - BitVec.ofNat 32 (4 * ls.length)
          = m.r15 - BitVec.ofNat 32 (4 * (ls.length + 1)) := by bv_omega
      have hlenr : ((ls.map m.get).reverse).length = ls.length := by simp
      have hput := putWords_push m.mem (m.r15 - 4) (m.get l) (ls.map m.get).reverse
        (by rw [hlenr]; exact hlen')
      rw [hlenr, haddr] at hput
      simp only [exec, haddr, hput, List.length_cons]

/-! ## Runs of pops -/

/-- One pop through `R15` of a register other than `R15`. -/
theorem exec_pop (m : Machine) {l : Loc} (h : l ≠ .r15) :
    exec m (.pop .r15 l) = (m.set .r15 (m.r15 + 4)).set l (m.mem m.r15) := by
  rw [exec]
  simp only [if_neg h]
  rfl

/-- The stack pointer and the memory after a run of pops. -/
theorem execAll_pop_r15 (ls : List Loc) (m : Machine) (hr : ∀ l ∈ ls, l ≠ .r15) :
    (execAll m (ls.map (.pop .r15))).r15 = m.r15 + BitVec.ofNat 32 (4 * ls.length) ∧
      (execAll m (ls.map (.pop .r15))).mem = m.mem := by
  induction ls generalizing m with
  | nil => simp
  | cons l ls ih =>
      have hl : l ≠ .r15 := hr l List.mem_cons_self
      obtain ⟨h15, hmem⟩ := ih (exec m (.pop .r15 l)) fun l' hl' => hr l' (.tail _ hl')
      rw [List.map_cons, execAll_cons, h15, hmem, exec_pop m hl, Machine.r15_set _ _ hl,
        List.length_cons]
      refine ⟨?_, by simp⟩
      show m.r15 + 4 + _ = _
      bv_omega

/-- A register that is not popped keeps its value, when `SR` is not popped either. -/
theorem get_execAll_pop_of_notMem (ls : List Loc) (m : Machine)
    (hr : ∀ l ∈ ls, l ≠ .r15 ∧ l ≠ .sr) {l' : Loc} (h15 : l' ≠ .r15) (hl' : l' ∉ ls) :
    (execAll m (ls.map (.pop .r15))).get l' = m.get l' := by
  induction ls generalizing m with
  | nil => rfl
  | cons l ls ih =>
      obtain ⟨hne, hnotin⟩ := not_or.mp (List.mem_cons.not.mp hl')
      obtain ⟨hl, hsr⟩ := hr l List.mem_cons_self
      rw [List.map_cons, execAll_cons, ih _ (fun l' hl' => hr l' (.tail _ hl')) hnotin,
        exec_pop m hl, Machine.get_set_of_ne _ _ hsr hne,
        Machine.get_set_of_ne _ _ (by simp) h15]

/-- **A run of pops** loads the words of memory upwards from `R15`. -/
theorem get_execAll_pop (ls : List Loc) (m : Machine) (hr : ∀ l ∈ ls, l ≠ .r15 ∧ l ≠ .sr)
    (hnd : ls.Nodup) {i : Nat} {l : Loc} (hi : ls[i]? = some l) :
    (execAll m (ls.map (.pop .r15))).get l = m.mem (m.r15 + BitVec.ofNat 32 (4 * i)) := by
  induction ls generalizing m i with
  | nil => simp at hi
  | cons l₀ ls ih =>
      obtain ⟨hnotin, hnd'⟩ := List.nodup_cons.mp hnd
      obtain ⟨hl₀, hsr₀⟩ := hr l₀ List.mem_cons_self
      have hr' : ∀ l ∈ ls, l ≠ .r15 ∧ l ≠ .sr := fun l hl => hr l (.tail _ hl)
      rw [List.map_cons, execAll_cons]
      cases i with
      | zero =>
          obtain rfl : l₀ = l := by simpa using hi
          rw [get_execAll_pop_of_notMem ls _ hr' hl₀ hnotin, exec_pop m hl₀, Machine.get_set_self]
          simp
      | succ i =>
          rw [ih _ hr' hnd' (by simpa using hi), exec_pop m hl₀, Machine.r15_set _ _ hl₀,
            Machine.mem_set, Machine.mem_set]
          congr 1
          show m.r15 + 4 + _ = _
          bv_omega

/-- The choice of bank after a run of pops without `SR`. -/
theorem sel_execAll_pop (ls : List Loc) (m : Machine) (hr : ∀ l ∈ ls, l ≠ .r15 ∧ l ≠ .sr) :
    (execAll m (ls.map (.pop .r15))).sel = m.sel := by
  induction ls generalizing m with
  | nil => rfl
  | cons l ls ih =>
      obtain ⟨hl, hsr⟩ := hr l List.mem_cons_self
      rw [List.map_cons, execAll_cons, ih _ fun l' hl' => hr l' (.tail _ hl'),
        exec_pop m hl, Machine.sel_set _ _ hsr, Machine.sel_set _ _ (by simp)]

end Xv6.Sh4a

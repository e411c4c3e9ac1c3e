import Xv6.Kernel.Param
import Xv6.Lib.Bytes

/-! # What `sys_exec` passes to `exec`

`fetchint` and `fetchstr` of `syscall.c` look at the memory of a process of `sz` bytes, as the process
sees it. `sys_exec` collects `argv` with them. -/

namespace Xv6.Fetch

open Lib

variable (mem : Nat → UInt8) (sz uargv : Nat)

/-- `fetchint`. -/
def fetchint (addr : Nat) : Option Nat :=
  if addr ≥ sz ∨ (addr + 4) % 4294967296 > sz then none else some (le32 mem addr)

/-- `fetchstr`: the length of the string. -/
def fetchstr (addr : Nat) : Option Nat :=
  if addr ≥ sz then none
  else ((List.range' addr (sz - addr)).find? fun s => mem s = 0).map (· - addr)

/-- The loop of `sys_exec` from `i` on, with `n` entries of `argv` left. -/
def sysExecLoop : (n i : Nat) → Option (List Nat)
  | 0, _ => none
  | n + 1, i => do
      let uarg ← fetchint mem sz ((uargv + 4 * i) % 4294967296)
      if uarg = 0 then some []
      else do
        let _ ← fetchstr mem sz uarg
        let argv ← sysExecLoop n (i + 1)
        some (uarg :: argv)

/-- **`sys_exec`** with its two arguments: the pointers that `exec` gets. -/
def sysExec (path : Nat) : Option (Nat × List Nat) := do
  let _ ← fetchstr mem sz path
  let argv ← sysExecLoop mem sz uargv 20 0
  some (path, argv)

/-- There is a terminator for the string at `p` inside the process. -/
def StringAt (p : Nat) : Prop := ∃ e < sz, p ≤ e ∧ mem e = 0

/-- **The array at `uargv` from `i` on**: pointers to strings, and then a null pointer. -/
inductive ArgsAt : (i : Nat) → List Nat → Prop
  | nil {i : Nat} (hin : (uargv + 4 * i) % 4294967296 + 4 ≤ sz)
      (hnull : le32 mem ((uargv + 4 * i) % 4294967296) = 0) : ArgsAt i []
  | cons {i p : Nat} {argv : List Nat} (hin : (uargv + 4 * i) % 4294967296 + 4 ≤ sz)
      (hp : le32 mem ((uargv + 4 * i) % 4294967296) = p) (hne : p ≠ 0)
      (hs : StringAt mem sz p) (hargv : ArgsAt (i + 1) argv) : ArgsAt i (p :: argv)

variable {mem sz uargv} {p : Nat}

theorem fetchint_eq (hsz : sz ≤ USERTOP) (a : Nat) : fetchint mem sz (a % 4294967296) =
    if a % 4294967296 + 4 ≤ sz then some (le32 mem (a % 4294967296)) else none := by
  unfold USERTOP at hsz
  rw [fetchint, ← ite_not]
  -- an address that passes the first check is too small for the sum to wrap
  exact if_congr (by omega) rfl rfl

theorem isSome_fetchstr : (fetchstr mem sz p).isSome ↔ StringAt mem sz p := by
  rw [fetchstr]
  split
  · exact ⟨nofun, fun ⟨e, he, hp, _⟩ => by omega⟩
  · simp only [Option.isSome_map, List.find?_isSome, List.mem_range'_1, decide_eq_true_eq]
    exact ⟨fun ⟨e, he, h0⟩ => ⟨e, by omega, he.1, h0⟩, fun ⟨e, he, hp, h0⟩ => ⟨e, by omega, h0⟩⟩

theorem sysExecLoop_eq_some_iff (hsz : sz ≤ USERTOP) {n i : Nat} {argv : List Nat} :
    sysExecLoop mem sz uargv n i = some argv ↔
      ArgsAt mem sz uargv i argv ∧ argv.length < n := by
  induction n generalizing i argv with
  | zero => exact ⟨nofun, fun h => absurd h.2 (Nat.not_lt_zero _)⟩
  | succ n ih =>
      rw [sysExecLoop, fetchint_eq hsz]
      constructor
      · intro h
        obtain ⟨w, hw, h⟩ := Option.bind_eq_some_iff.mp h
        obtain ⟨hin, hw⟩ := Option.ite_none_right_eq_some.mp hw
        obtain rfl := Option.some.inj hw
        split at h
        · next hnull =>
            cases h
            exact ⟨.nil hin hnull, Nat.succ_pos n⟩
        · next hne =>
            obtain ⟨len, hlen, h⟩ := Option.bind_eq_some_iff.mp h
            obtain ⟨rest, hrest, h⟩ := Option.bind_eq_some_iff.mp h
            cases h
            obtain ⟨hargs, hlt⟩ := ih.mp hrest
            exact ⟨.cons hin rfl hne (isSome_fetchstr.mp (hlen ▸ rfl)) hargs, Nat.succ_lt_succ hlt⟩
      · rintro ⟨hargs, hlt⟩
        cases hargs with
        | nil hin hnull => rw [if_pos hin, Option.bind_eq_bind, Option.bind_some, if_pos hnull]
        | cons hin hp hne hs hargv =>
            obtain ⟨len, hlen⟩ := Option.isSome_iff_exists.mp (isSome_fetchstr.mpr hs)
            rw [if_pos hin, Option.bind_eq_bind, Option.bind_some, hp, if_neg hne, hlen,
              Option.bind_eq_bind, Option.bind_some,
              ih.mpr ⟨hargv, Nat.lt_of_succ_lt_succ hlt⟩]
            rfl

/-- **`sys_exec` passes on exactly what lies inside the process**: a path and at most 19 strings
with their terminators, from an array that ends with a null pointer. -/
theorem sysExec_iff (hsz : sz ≤ USERTOP) (path : Nat) (argv : List Nat) :
    sysExec mem sz uargv path = some (path, argv) ↔
      StringAt mem sz path ∧ ArgsAt mem sz uargv 0 argv ∧ argv.length ≤ 19 := by
  rw [sysExec, ← Nat.lt_succ_iff, ← sysExecLoop_eq_some_iff hsz, ← isSome_fetchstr]
  cases fetchstr mem sz path <;> cases sysExecLoop mem sz uargv 20 0 <;> simp

/-- The path `a` at 8 and an array with one pointer to it. -/
theorem sysExec_iff_one :
    ArgsAt (fun a => [8, 0, 0, 0, 0, 0, 0, 0, 97, 0].getD a 0) 10 0 0 [8] :=
  ((sysExec_iff (by decide) 8 [8]).mp (by decide +kernel)).2.1

end Xv6.Fetch
